import HclToJson.Proofs.Comment.Lines
import HclToJson.Proofs.Comment.Uncommented
import HclToJson.Proofs.Text.SingleSpaced

/-!
The normal form of texts. If every string is closed on its line, no comment is left in what the
removal of comments gives, nor in what becomes of that when invalid bytes are replaced and white space
is joined: a normalized text is normalized as it stands.
-/

namespace HclToJson.Comment

open Text

/-- Where the quotes are in a region: in comments they mean nothing. -/
def Region.quote : Region → Quote
  | .code quote => quote
  | .line | .block => .outside

/-- From inside of a region on, no string is open where a line ends or the text does. -/
def Region.ClosesStrings (region : Region) (text : Bytes) : Prop :=
  ∀ n ≤ text.length, (text[n]? = none ∨ text[n]? = some Byte.newline) →
    (region.after (text.take n)).quote = .outside

instance (region : Region) (text : Bytes) : Decidable (region.ClosesStrings text) :=
  inferInstanceAs (Decidable (∀ n ≤ text.length, _ → _))

/-- Each string is closed on the line that it starts on. -/
abbrev StringsClosed (text : Bytes) : Prop := Region.ClosesStrings (.code .outside) text

namespace Region.ClosesStrings

variable {quote : Quote} {b c : UInt8} {rest : Bytes}

theorem quote_eq_outside {region : Region} (h : region.ClosesStrings (Byte.newline :: rest)) :
    region.quote = .outside := by
  simpa [Region.after] using h 0 (Nat.zero_le _) (Or.inr rfl)

/-- What holds from one region on holds behind a part of the text, from the region that the part
leads to. -/
theorem behind {region next : Region} (front : Bytes)
    (hafter : ∀ n, rest[n]? = none ∨ rest[n]? = some Byte.newline →
      region.after (front ++ rest.take n) = next.after (rest.take n))
    (h : region.ClosesStrings (front ++ rest)) : next.ClosesStrings rest := by
  intro n hn hend
  have hget : (front ++ rest)[front.length + n]? = rest[n]? := by
    rw [List.getElem?_append_right (Nat.le_add_right _ _), Nat.add_sub_cancel_left]
  have hlength : front.length + n ≤ (front ++ rest).length := by
    rw [List.length_append]
    exact Nat.add_le_add_left hn _
  have htake : (front ++ rest).take (front.length + n) = front ++ rest.take n := by
    rw [List.take_append, List.take_of_length_le (Nat.le_add_right _ _), Nat.add_sub_cancel_left]
  have hclosed := h (front.length + n) hlength (by rwa [hget])
  rwa [htake, hafter n hend] at hclosed

theorem close_block (h : Region.block.ClosesStrings (Byte.star :: Byte.slash :: rest)) :
    Region.ClosesStrings (.code .outside) rest :=
  behind [Byte.star, Byte.slash] (fun _ _ => by
    rw [List.cons_append, List.cons_append, Region.after, if_pos ⟨rfl, rfl⟩, List.nil_append]) h

theorem block (hopen : ¬ (b = Byte.star ∧ c = Byte.slash))
    (h : Region.block.ClosesStrings (b :: c :: rest)) : Region.block.ClosesStrings (c :: rest) := by
  refine behind [b] ?_ h
  intro n _
  cases n with
  | zero => rfl
  | succ n => rw [List.take_succ_cons, List.singleton_append, Region.after, if_neg hopen]

theorem line (h : Region.line.ClosesStrings (b :: rest)) :
    Region.ClosesStrings (if b = Byte.newline then .code .outside else .line) rest :=
  behind [b] (fun _ _ => by rw [List.singleton_append, Region.after]) h

theorem open_block (hopen : quote.next b = .outside ∧ b = Byte.slash ∧ c = Byte.star)
    (h : Region.ClosesStrings (.code quote) (b :: c :: rest)) :
    Region.block.ClosesStrings rest :=
  behind [b, c] (fun _ _ => by
    rw [List.cons_append, List.cons_append, Region.after, if_pos hopen, List.nil_append]) h

theorem code (hopen : ¬ (quote.next b = .outside ∧ b = Byte.slash ∧ c = Byte.star))
    (h : Region.ClosesStrings (.code quote) (b :: c :: rest)) :
    Region.ClosesStrings (quote.behind b (c :: rest)) (c :: rest) := by
  refine behind [b] ?_ h
  intro n hend
  cases n with
  | zero =>
      obtain rfl : c = Byte.newline := by simpa using hend
      rw [behind_before_newline]
      rfl
  | succ n =>
      rw [List.take_succ_cons, List.singleton_append, Region.after, if_neg hopen]
      rfl

end Region.ClosesStrings

theorem IsMark.opensLine {b : UInt8} (h : IsMark b) (rest : Bytes) : opensLine b rest = false := by
  obtain ⟨-, hslash, hhash, -⟩ := h.ne
  simp [Comment.opensLine, hslash, hhash]

theorem head?_scan_lineComment (text : Bytes) :
    ∀ b ∈ (scan .lineComment text).head?, b = Byte.space := by
  induction text with
  | nil => simp [scan]
  | cons b rest ih =>
      rw [scan]
      split
      · simp
      · exact ih

theorem head?_scan_code {c d : UInt8} (hd : d ∈ [Byte.slash, Byte.star]) (hslash : c ≠ Byte.slash)
    {rest : Bytes} (h : (scan .code (c :: rest)).head? = some d) : c = d := by
  have hout : Quote.outside.WellMarked := trivial
  have hspace : Byte.space ≠ d := by
    rintro rfl
    exact absurd hd (by decide)
  have hscan := scan_code hout c rest
  rw [Region.place] at hscan
  rw [hscan] at h
  split at h
  · exact absurd (Option.some.inj h) hspace
  · rw [if_neg fun hblock => hslash hblock.2.1] at h
    split at h
    · exact absurd (head?_scan_lineComment rest d h).symm hspace
    · exact Option.some.inj h

/-- Removing comments brings no two bytes together that would open one. -/
theorem Opens.of_scan {b : UInt8} {rest : Bytes} (h : Opens b (scan .code rest)) :
    Opens b rest := by
  cases rest with
  | nil => exact h
  | cons c rest =>
      by_cases hc : c = Byte.slash
      · -- Behind a slash this opens a line comment, whatever is made of the rest.
        rcases h with hline | ⟨rfl, -⟩
        · left
          simp only [opensLine, Bool.or_eq_true, Bool.and_eq_true, decide_eq_true_eq] at hline ⊢
          exact hline.imp_right fun hslash => ⟨hslash.1, by rw [hc]; rfl⟩
        · left
          simp [opensLine, hc]
      · exact h.mono fun d hd hhead => congrArg some (head?_scan_code hd hc hhead)

theorem uncommented_code {quote : Quote} (h : quote.WellMarked) {b : UInt8} {rest : Bytes}
    (hblock : ¬ (quote.next b = .outside ∧ b = Byte.slash ∧ rest.head? = some Byte.star))
    (hnewline : b = Byte.newline → quote = .outside)
    (hrest : Uncommented (quote.behind b rest).quote (scan (quote.behind b rest).place rest)) :
    Uncommented quote (scan (Region.code quote).place (b :: rest)) := by
  have hout : Quote.outside.WellMarked := trivial
  have hspace : Inert Byte.space := by decide
  rw [scan_code h]
  by_cases hb : b = Byte.newline
  · rw [Quote.behind, if_pos hb] at hrest
    rw [if_pos hb, hnewline hb]
    exact (uncommented_cons_inert hout hspace _).mpr hrest
  · rw [Quote.behind, if_neg hb] at hrest
    rw [if_neg hb, if_neg hblock]
    by_cases hline : quote.next b = .outside ∧ opensLine b rest = true
    · have hmark : ¬ IsMark b := fun hmark => by simp [hmark.opensLine] at hline
      rw [if_pos hline] at hrest ⊢
      rw [h.eq_outside hmark hline.1]
      exact hrest
    · rw [if_neg hline] at hrest ⊢
      refine ⟨hb, ?_, hrest⟩
      rintro ⟨hnext, hopens⟩
      rw [hnext] at hopens
      rcases hopens.of_scan with hopens | hopens
      · exact hline ⟨hnext, hopens⟩
      · exact hblock ⟨hnext, hopens⟩

theorem uncommented_scan {region : Region} (h : region.WellMarked) {text : Bytes}
    (hclosed : region.ClosesStrings text) : Uncommented region.quote (scan region.place text) := by
  have hout : Quote.outside.WellMarked := trivial
  have hspace : Inert Byte.space := by decide
  fun_induction Region.after region text with
  | case1 region => simp [scan, Uncommented]
  | case2 b => simp [Region.place, scan, Uncommented]
  | case3 b c rest hclose ih =>
      obtain ⟨rfl, rfl⟩ := hclose
      rw [Region.place, scan, if_pos ⟨rfl, rfl⟩]
      exact ih hout hclosed.close_block
  | case4 b c rest hopen ih =>
      rw [Region.place, scan, if_neg hopen]
      exact ih trivial (hclosed.block hopen)
  | case5 b rest ih =>
      have hrest := hclosed.line
      rw [Region.place, scan]
      split at ih
      · rename_i hb
        rw [if_pos hb] at hrest ⊢
        exact (uncommented_cons_inert hout hspace _).mpr (ih hout hrest)
      · rename_i hb
        rw [if_neg hb] at hrest ⊢
        exact ih trivial hrest
  | case6 quote b =>
      refine uncommented_code h (by simp) ?_ (by simp [scan, Uncommented])
      rintro rfl
      exact hclosed.quote_eq_outside
  | case7 quote b c rest hblock ih =>
      obtain ⟨hnext, rfl, rfl⟩ := hblock
      have hmark : ¬ IsMark Byte.slash := by decide
      have hquote : quote = .outside := h.eq_outside hmark hnext
      rw [scan_code h, if_neg (by decide), if_pos ⟨hnext, rfl, rfl⟩, Region.quote, hquote]
      exact ih trivial (hclosed.open_block ⟨hnext, rfl, rfl⟩)
  | case8 quote b c rest hblock ih =>
      refine uncommented_code h (by simpa using hblock) ?_ (ih ?_ (hclosed.code hblock))
      · rintro rfl
        exact hclosed.quote_eq_outside
      · exact h.behind b (c :: rest)

theorem strip_strip {text : Bytes} (h : StringsClosed text) : strip (strip text) = strip text := by
  have hout : (Region.code .outside).WellMarked := trivial
  rw [strip_eq_self_iff, strip, stripLines_stripBlocks]
  exact uncommented_scan hout h

/-- A normalized text has single spaces between its words and no other white space, and its words are
those of the text without comments. If every string of the text is closed on its line, then nothing
is left to normalize. -/
theorem normalize_normal_form (text : Bytes) :
    SingleSpaced (Source.normalize text).toList ∧
      words (Source.normalize text).toList = words (decode (strip text)) ∧
      (StringsClosed text →
        Source.normalize (encode (Source.normalize text)) = Source.normalize text) := by
  have hchars : (Source.normalize text).toList = collapse (decode (strip text)) :=
    String.toList_ofList
  rw [hchars]
  exact ⟨singleSpaced_collapse _, words_collapse _,
    fun h => normalize_encode_normalize (strip_strip h)⟩

/-- Two lines with markers and quotes in strings and in comments. A block comment parts the bytes of
a character, and the last byte is none of any character. -/
def commentedLines : Bytes :=
  encode "f(\"a\t \\\" #\", /* \"\n */ '//'  # it's \"\n" ++
    0xC3 :: encode "/**/" ++ 0xA9 :: encode " ) /" ++ [0xFF]

theorem normalize_normal_form_commented :
    StringsClosed commentedLines ∧
      Source.normalize commentedLines = "f(\"a \\\" #\", '//' é ) /\uFFFD" ∧
      Source.normalize (encode (Source.normalize commentedLines)) =
        Source.normalize commentedLines := by
  have h : StringsClosed commentedLines := by decide +kernel
  have htext : Source.normalize commentedLines = "f(\"a \\\" #\", '//' é ) /\uFFFD" := by
    decide +kernel
  exact ⟨h, htext, (normalize_normal_form commentedLines).2.2 h⟩

end HclToJson.Comment
