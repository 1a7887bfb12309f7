import HclToJson.Comment.Strip

namespace HclToJson.Comment

abbrev IsMark (b : UInt8) : Prop := b = Byte.quote ∨ b = Byte.apostrophe

/-- What a single pass is reading. -/
inductive Place
  | code
  /-- A string that the byte `mark` closes. -/
  | string (mark : UInt8)
  /-- Such a string, directly after a backslash. -/
  | escape (mark : UInt8)
  | lineComment
  | blockComment
  deriving DecidableEq

/-- The single pass, from inside of a place. Code and strings are copied and comments are dropped
with their delimiters. A newline outside of a block comment becomes a space and ends the place. -/
def scan : Place → Bytes → Bytes
  | _, [] => []
  | .code, [b] =>
      if b = Byte.newline then [Byte.space] else if b = Byte.hash then [] else [b]
  | .code, b :: c :: rest =>
      if b = Byte.newline then Byte.space :: scan .code (c :: rest)
      else if b = Byte.slash ∧ c = Byte.star then scan .blockComment rest
      else if b = Byte.hash ∨ (b = Byte.slash ∧ c = Byte.slash) then scan .lineComment (c :: rest)
      else b :: scan (if IsMark b then .string b else .code) (c :: rest)
  | .string mark, b :: rest =>
      if b = Byte.newline then Byte.space :: scan .code rest
      else if b = Byte.backslash then b :: scan (.escape mark) rest
      else b :: scan (if b = mark then .code else .string mark) rest
  | .escape mark, b :: rest =>
      if b = Byte.newline then Byte.space :: scan .code rest else b :: scan (.string mark) rest
  | .lineComment, b :: rest =>
      if b = Byte.newline then Byte.space :: scan .code rest else scan .lineComment rest
  | .blockComment, [_] => []
  | .blockComment, b :: c :: rest =>
      if b = Byte.star ∧ c = Byte.slash then scan .code rest else scan .blockComment (c :: rest)

/-- The second pass byte by byte, from inside of a line: at a position of the quotes, or behind the
marker of a line comment if there is none. -/
def cutFrom : Option Quote → Bytes → Bytes
  | _, [] => []
  | none, b :: rest =>
      if b = Byte.newline then Byte.space :: cutFrom (some .outside) rest else cutFrom none rest
  | some quote, b :: rest =>
      if b = Byte.newline then Byte.space :: cutFrom (some .outside) rest
      else if quote.next b = .outside ∧ opensLine b rest then cutFrom none rest
      else b :: cutFrom (some (quote.next b)) rest

def cutFirst : Option Quote → Bytes → Bytes
  | none, _ => []
  | some quote, line => cutLine quote line

theorem lines_newline (rest : Bytes) : lines (Byte.newline :: rest) = [] :: lines rest := by
  simp [lines]

theorem lines_ne_nil (text : Bytes) : lines text ≠ [] := by
  cases text with
  | nil => simp [lines]
  | cons b rest =>
      unfold lines
      split
      · simp
      · split <;> simp

theorem exists_lines_cons {b : UInt8} (rest : Bytes) (h : b ≠ Byte.newline) :
    ∃ line others, lines rest = line :: others ∧ lines (b :: rest) = (b :: line) :: others := by
  obtain ⟨line, others, hlines⟩ := List.exists_cons_of_ne_nil (lines_ne_nil rest)
  exact ⟨line, others, hlines, by simp [lines, h, hlines]⟩

theorem opensLine_line {rest line : Bytes} {others : List Bytes} (b : UInt8)
    (h : lines rest = line :: others) : opensLine b line = opensLine b rest := by
  cases rest with
  | nil =>
      obtain ⟨rfl, -⟩ : line = [] ∧ others = [] := by simpa [lines, eq_comm] using h
      rfl
  | cons c rest =>
      by_cases hc : c = Byte.newline
      · subst c
        rw [lines_newline] at h
        obtain ⟨rfl, -⟩ := List.cons.inj h
        have hne : ¬ Byte.newline = Byte.slash := by decide
        simp [opensLine, hne]
      · obtain ⟨tail, others', -, hcons⟩ := exists_lines_cons rest hc
        rw [hcons] at h
        obtain ⟨rfl, -⟩ := List.cons.inj h
        simp [opensLine]

theorem intercalate_cons_head (b : UInt8) (line : Bytes) (others : List Bytes) :
    [Byte.space].intercalate ((b :: line) :: others) =
      b :: [Byte.space].intercalate (line :: others) := by
  cases others with
  | nil => simp
  | cons next others => simp [List.intercalate_cons_cons]

theorem cutFrom_eq_intercalate (place : Option Quote) {text line : Bytes} {others : List Bytes}
    (h : lines text = line :: others) :
    cutFrom place text =
      [Byte.space].intercalate (cutFirst place line :: others.map (cutLine .outside)) := by
  induction text generalizing place line others with
  | nil =>
      obtain ⟨rfl, rfl⟩ : line = [] ∧ others = [] := by simpa [lines, eq_comm] using h
      cases place <;> simp [cutFrom, cutFirst, cutLine]
  | cons b rest ih =>
      obtain ⟨next, others', hnext⟩ := List.exists_cons_of_ne_nil (lines_ne_nil rest)
      by_cases hb : b = Byte.newline
      · subst b
        rw [lines_newline, hnext] at h
        obtain ⟨rfl, rfl⟩ := List.cons.inj h
        have hrest := ih (some .outside) hnext
        cases place <;>
          simp [cutFrom, cutFirst, cutLine, hrest, List.intercalate_cons_cons]
      · obtain ⟨tail, others'', htail, hcons⟩ := exists_lines_cons rest hb
        rw [hcons] at h
        obtain ⟨rfl, rfl⟩ := List.cons.inj h
        cases place with
        | none => simpa [cutFrom, cutFirst, hb] using ih none htail
        | some quote =>
            by_cases hopens : quote.next b = .outside ∧ opensLine b rest = true
            · have hline : quote.next b = .outside ∧ opensLine b tail = true := by
                rwa [opensLine_line b htail]
              simpa [cutFrom, cutFirst, cutLine, hb, hopens, hline] using ih none htail
            · have hline : ¬ (quote.next b = .outside ∧ opensLine b tail = true) := by
                rwa [opensLine_line b htail]
              rw [cutFrom, if_neg hb, if_neg hopens, ih _ htail, cutFirst, cutFirst, cutLine,
                if_neg hline, intercalate_cons_head]

theorem stripLines_eq_cutFrom (text : Bytes) : stripLines text = cutFrom (some .outside) text := by
  obtain ⟨line, others, hlines⟩ := List.exists_cons_of_ne_nil (lines_ne_nil text)
  rw [cutFrom_eq_intercalate (some .outside) hlines, stripLines, hlines, List.map_cons, cutFirst]

theorem IsMark.ne {b : UInt8} (h : IsMark b) :
    b ≠ Byte.newline ∧ b ≠ Byte.slash ∧ b ≠ Byte.hash ∧ b ≠ Byte.backslash := by
  rcases h with rfl | rfl <;> decide

/-- The byte that closes a string is one that opens strings. -/
def Quote.WellMarked : Quote → Prop
  | .outside => True
  | .inside mark | .escaped mark => IsMark mark

theorem Quote.WellMarked.next {quote : Quote} (h : quote.WellMarked) (b : UInt8) :
    (quote.next b).WellMarked := by
  cases quote with
  | outside =>
      by_cases hb : IsMark b
      · rw [Quote.next, if_pos hb]
        exact hb
      · rw [Quote.next, if_neg hb]
        trivial
  | inside mark =>
      by_cases hb : b = Byte.backslash
      · rw [Quote.next, if_pos hb]
        exact h
      · by_cases hmark : b = mark
        · rw [Quote.next, if_neg hb, if_pos hmark]
          trivial
        · rw [Quote.next, if_neg hb, if_neg hmark]
          exact h
  | escaped mark => exact h

namespace Region

/-- What the single pass is reading while the first pass is inside of a region. -/
def place : Region → Place
  | .code .outside => .code
  | .code (.inside mark) => .string mark
  | .code (.escaped mark) => .escape mark
  | .line => .lineComment
  | .block => .blockComment

/-- Where the second pass is in what the first pass has written, while that is inside of a
region. -/
def cut : Region → Option Quote
  | .code quote => some quote
  | .line => none
  | .block => some .outside

def WellMarked : Region → Prop
  | .code quote => quote.WellMarked
  | .line | .block => True

end Region

theorem head?_dropBlocks_code {c : UInt8} (quote : Quote) (rest : Bytes) (h : c ≠ Byte.slash) :
    (dropBlocks (.code quote) (c :: rest)).head? = some c := by
  cases rest with
  | nil => simp [dropBlocks]
  | cons d rest =>
      simp only [dropBlocks, h, false_and, and_false, ↓reduceIte]
      split <;> split <;> rfl

theorem head?_dropBlocks_line (b : UInt8) (rest : Bytes) :
    (dropBlocks .line (b :: rest)).head? = some b := by
  cases rest <;> simp [dropBlocks]

theorem scan_code {quote : Quote} (h : quote.WellMarked) (b : UInt8) (rest : Bytes) :
    scan (Region.code quote).place (b :: rest) =
      if b = Byte.newline then Byte.space :: scan .code rest
      else if quote.next b = .outside ∧ b = Byte.slash ∧ rest.head? = some Byte.star then
        scan .blockComment rest.tail
      else if quote.next b = .outside ∧ opensLine b rest then scan .lineComment rest
      else b :: scan (Region.code (quote.next b)).place rest := by
  cases quote with
  | outside =>
      by_cases hmark : IsMark b
      · obtain ⟨hnewline, hslash, hhash, -⟩ := hmark.ne
        cases rest <;> simp [scan, Region.place, Quote.next, hmark, hnewline, hslash, hhash]
      · cases rest <;> simp [scan, Region.place, Quote.next, hmark, opensLine]
  | inside mark =>
      obtain ⟨hnewline, hslash, hhash, hbackslash⟩ := IsMark.ne h
      by_cases hmark : b = mark
      · subst b
        simp [scan, Region.place, Quote.next, opensLine, hnewline, hslash, hhash, hbackslash]
      · by_cases hb : b = Byte.backslash
        · simp [scan, Region.place, Quote.next, hb]
        · simp [scan, Region.place, Quote.next, hb, hmark]
  | escaped mark => simp [scan, Region.place, Quote.next]

theorem opensLine_newline (after : Bytes) : opensLine Byte.newline after = false := rfl

theorem opensLine_congr (b : UInt8) {after after' : Bytes} (h : after.head? = after'.head?) :
    opensLine b after = opensLine b after' := by
  simp [opensLine, h]

/-- The first pass brings no two bytes together that would open a line comment. -/
theorem not_opensLine_dropBlocks {b c : UInt8} {rest : Bytes} (quote : Quote)
    (h : ¬ opensLine b (c :: rest) = true) :
    ¬ opensLine b (dropBlocks (.code quote) (c :: rest)) = true := by
  by_cases hb : b = Byte.slash
  · have hc : c ≠ Byte.slash := by
      rintro rfl
      simp [opensLine, hb] at h
    have hhead : (dropBlocks (.code quote) (c :: rest)).head? = (c :: rest).head? :=
      head?_dropBlocks_code quote rest hc
    rwa [opensLine_congr b hhead]
  · simpa [opensLine, hb] using h

theorem Quote.WellMarked.eq_outside {quote : Quote} (h : quote.WellMarked) {b : UInt8}
    (hb : ¬ IsMark b) (hnext : quote.next b = .outside) : quote = .outside := by
  cases quote with
  | outside => rfl
  | inside mark =>
      have hmark : b ≠ mark := fun heq => hb (heq ▸ h)
      by_cases hbackslash : b = Byte.backslash
      · simp [Quote.next, hbackslash] at hnext
      · simp [Quote.next, hbackslash, hmark] at hnext
  | escaped mark => simp [Quote.next] at hnext

/-- From each byte on, the second pass makes of what the first pass writes what the single pass
makes of the text. -/
theorem cutFrom_dropBlocks {region : Region} (h : region.WellMarked) (text : Bytes) :
    cutFrom region.cut (dropBlocks region text) = scan region.place text := by
  fun_induction dropBlocks region text with
  | case1 region => simp [cutFrom, scan]
  | case2 b => simp [cutFrom, scan, Region.place]
  | case3 b c rest hclose ih =>
      rw [Region.place, scan, if_pos hclose]
      exact ih trivial
  | case4 b c rest hopen ih =>
      rw [Region.place, scan, if_neg hopen]
      exact ih trivial
  | case5 b rest ih =>
      by_cases hb : b = Byte.newline
      · rw [if_pos hb] at ih ⊢
        rw [Region.cut, cutFrom, if_pos hb, Region.place, scan, if_pos hb]
        exact congrArg (Byte.space :: ·) (ih trivial)
      · rw [if_neg hb] at ih ⊢
        rw [Region.cut, cutFrom, if_neg hb, Region.place, scan, if_neg hb]
        exact ih trivial
  | case6 quote b =>
      rw [scan_code h, Region.cut, cutFrom]
      simp [scan, cutFrom]
  | case7 quote b c rest next hopen ih =>
      obtain ⟨hnext, rfl, rfl⟩ := hopen
      have hnewline : Byte.slash ≠ Byte.newline := by decide
      have hmark : ¬ IsMark Byte.slash := by decide
      have hquote : quote = .outside := Quote.WellMarked.eq_outside h hmark (by
        simpa [next, hnewline] using hnext)
      subst quote
      have hout : Quote.outside.WellMarked := trivial
      rw [scan_code hout, if_neg hnewline, if_pos ⟨rfl, rfl, rfl⟩]
      exact ih trivial
  | case8 quote b c rest next hblock hline ih =>
      have hb : b ≠ Byte.newline := by
        rintro rfl
        rw [opensLine_newline] at hline
        exact absurd hline.2 (by decide)
      have hnext : next = quote.next b := if_neg hb
      rw [hnext] at hblock hline
      have hstar : ¬ (quote.next b = .outside ∧ b = Byte.slash ∧
          (c :: rest).head? = some Byte.star) := by simpa using hblock
      have hdropped : opensLine b (dropBlocks .line (c :: rest)) = opensLine b (c :: rest) :=
        opensLine_congr b (head?_dropBlocks_line c rest)
      rw [scan_code h, if_neg hb, if_neg hstar, if_pos hline, Region.cut, cutFrom, if_neg hb,
        hdropped, if_pos hline]
      exact ih trivial
  | case9 quote b c rest next hblock hline ih =>
      by_cases hb : b = Byte.newline
      · have hnext : next = .outside := if_pos hb
        rw [hnext] at ih ⊢
        rw [scan_code h, if_pos hb, Region.cut, cutFrom, if_pos hb]
        exact congrArg (Byte.space :: ·) (ih trivial)
      · have hnext : next = quote.next b := if_neg hb
        rw [hnext] at hblock hline ih ⊢
        have hstar : ¬ (quote.next b = .outside ∧ b = Byte.slash ∧
            (c :: rest).head? = some Byte.star) := by simpa using hblock
        have hdropped : ¬ (quote.next b = .outside ∧
            opensLine b (dropBlocks (.code (quote.next b)) (c :: rest)) = true) := by
          rintro ⟨hout, hopens⟩
          exact not_opensLine_dropBlocks _ (fun hcode => hline ⟨hout, hcode⟩) hopens
        rw [scan_code h, if_neg hb, if_neg hstar, if_neg hline, Region.cut, cutFrom, if_neg hb,
          if_neg hdropped]
        exact congrArg (b :: ·) (ih (Quote.WellMarked.next h b))

theorem stripLines_stripBlocks (text : Bytes) : stripLines (stripBlocks text) = scan .code text := by
  have h : (Region.code .outside).WellMarked := trivial
  rw [stripLines_eq_cutFrom, stripBlocks]
  exact cutFrom_dropBlocks h text

/-- The two passes together are one pass: cutting the block comments out first changes neither the
strings nor the line comments that are seen in the rest. -/
theorem strip_eq_scan (text : Bytes) : strip text = scan .code text := by
  rw [strip, stripLines_stripBlocks]

end HclToJson.Comment
