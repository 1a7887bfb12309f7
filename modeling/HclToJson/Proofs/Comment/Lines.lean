import HclToJson.Proofs.Comment.OnePass
import HclToJson.Text.Utf8

namespace HclToJson.Comment

/-- The region behind a byte of code that opens no block comment, with `rest` behind it. -/
def Quote.behind (quote : Quote) (b : UInt8) (rest : Bytes) : Region :=
  if b = Byte.newline then .code .outside
  else if quote.next b = .outside ∧ opensLine b rest then .line
  else .code (quote.next b)

theorem Quote.WellMarked.behind {quote : Quote} (h : quote.WellMarked) (b : UInt8) (rest : Bytes) :
    (quote.behind b rest).WellMarked := by
  rw [Quote.behind]
  split
  · trivial
  · split
    · trivial
    · exact h.next b

/-- The region that the first pass is in at the end of a text. -/
def Region.after : Region → Bytes → Region
  | region, [] => region
  | .block, [_] => .block
  | .block, b :: c :: rest =>
      if b = Byte.star ∧ c = Byte.slash then Region.after (.code .outside) rest
      else Region.after .block (c :: rest)
  | .line, b :: rest => Region.after (if b = Byte.newline then .code .outside else .line) rest
  | .code quote, [b] => quote.behind b []
  | .code quote, b :: c :: rest =>
      if quote.next b = .outside ∧ b = Byte.slash ∧ c = Byte.star then Region.after .block rest
      else Region.after (quote.behind b (c :: rest)) (c :: rest)

/-- The region that the first pass ends in. -/
def lastRegion (text : Bytes) : Region := Region.after (.code .outside) text

theorem dropBlocks_code (quote : Quote) (b : UInt8) (rest : Bytes) :
    dropBlocks (.code quote) (b :: rest) =
      if quote.next b = .outside ∧ b = Byte.slash ∧ rest.head? = some Byte.star then
        dropBlocks .block rest.tail
      else b :: dropBlocks (quote.behind b rest) rest := by
  cases rest with
  | nil => simp [dropBlocks]
  | cons c rest =>
      by_cases hb : b = Byte.newline
      · have hne : Byte.newline ≠ Byte.slash := by decide
        simp [dropBlocks, Quote.behind, hb, hne, opensLine_newline]
      · rw [dropBlocks, Quote.behind, if_neg hb, if_neg hb]
        simp only [List.head?_cons, Option.some.injEq, List.tail_cons]
        split
        · rfl
        · split <;> rfl

theorem behind_before_newline (quote : Quote) (b : UInt8) (rest : Bytes) :
    quote.behind b (Byte.newline :: rest) = quote.behind b [] := by
  have hne : Byte.newline ≠ Byte.slash := by decide
  simp [Quote.behind, opensLine, hne]

theorem behind_append (quote : Quote) (b c : UInt8) (rest back : Bytes) :
    quote.behind b (c :: rest ++ back) = quote.behind b (c :: rest) := rfl

/-- The first pass never looks beyond the end of a line. -/
theorem dropBlocks_append_newline (region : Region) (line rest : Bytes) :
    dropBlocks region (line ++ Byte.newline :: rest) =
      dropBlocks region line ++ dropBlocks (region.after line) (Byte.newline :: rest) := by
  fun_induction Region.after region line with
  | case1 region => simp [dropBlocks]
  | case2 b =>
      have hopen : ¬ (b = Byte.star ∧ Byte.newline = Byte.slash) := fun h => absurd h.2 (by decide)
      have hlast : dropBlocks .block [b] = [] := rfl
      rw [hlast, List.cons_append, List.nil_append, List.nil_append, dropBlocks, if_neg hopen]
  | case3 b c line hclose ih =>
      rw [List.cons_append, List.cons_append, dropBlocks, if_pos hclose, ih, dropBlocks,
        if_pos hclose]
  | case4 b c line hopen ih =>
      rw [List.cons_append, List.cons_append, dropBlocks, if_neg hopen, ← List.cons_append, ih,
        dropBlocks, if_neg hopen]
  | case5 b line ih => rw [List.cons_append, dropBlocks, ih, dropBlocks, List.cons_append]
  | case6 quote b =>
      have hstar : (Byte.newline :: rest).head? ≠ some Byte.star := by
        rw [List.head?_cons]
        decide
      rw [List.cons_append, List.nil_append, dropBlocks_code, if_neg fun h => hstar h.2.2,
        behind_before_newline]
      rfl
  | case7 quote b c line hblock ih =>
      rw [List.cons_append, dropBlocks_code, dropBlocks_code]
      simp only [List.cons_append, List.head?_cons, Option.some.injEq, List.tail_cons]
      rw [if_pos hblock, if_pos hblock, ih]
  | case8 quote b c line hblock ih =>
      rw [List.cons_append, dropBlocks_code, dropBlocks_code, behind_append]
      simp only [List.cons_append, List.head?_cons, Option.some.injEq, List.tail_cons] at ih ⊢
      rw [if_neg hblock, if_neg hblock, ih, List.cons_append]

theorem dropBlocks_newline {region : Region} (h : region ≠ .block) (rest : Bytes) :
    dropBlocks region (Byte.newline :: rest) = Byte.newline :: stripBlocks rest := by
  cases region with
  | code quote =>
      have hne : Byte.newline ≠ Byte.slash := by decide
      rw [dropBlocks_code, if_neg fun h => hne h.2.1]
      rfl
  | line => rw [dropBlocks, if_pos rfl, stripBlocks]
  | block => exact absurd rfl h

theorem stripBlocks_append_newline {line : Bytes} (h : lastRegion line ≠ .block) (rest : Bytes) :
    stripBlocks (line ++ Byte.newline :: rest) =
      stripBlocks line ++ Byte.newline :: stripBlocks rest := by
  rw [stripBlocks, dropBlocks_append_newline]
  exact congrArg (stripBlocks line ++ ·) (dropBlocks_newline h rest)

theorem stripBlocks_intercalate {texts : List Bytes}
    (h : ∀ line ∈ texts, lastRegion line ≠ .block) :
    stripBlocks ([Byte.newline].intercalate texts) =
      [Byte.newline].intercalate (texts.map stripBlocks) := by
  induction texts with
  | nil => rfl
  | cons line others ih =>
      obtain ⟨hline, hothers⟩ := List.forall_mem_cons.mp h
      cases others with
      | nil => simp
      | cons next others =>
          rw [List.intercalate_cons_cons, List.append_assoc, List.singleton_append,
            stripBlocks_append_newline hline, ih hothers]
          simp only [List.map_cons, List.intercalate_cons_cons, List.append_assoc,
            List.singleton_append]

theorem dropBlocks_sublist (region : Region) (text : Bytes) :
    (dropBlocks region text).Sublist text := by
  fun_induction dropBlocks region text with
  | case1 => exact List.Sublist.refl _
  | case2 b => exact List.nil_sublist _
  | case3 b c rest hclose ih => exact (ih.cons c).cons b
  | case4 b c rest hopen ih => exact ih.cons b
  | case5 b rest ih => exact ih.cons_cons b
  | case6 quote b => exact List.Sublist.refl _
  | case7 quote b c rest next hopen ih => exact (ih.cons c).cons b
  | case8 quote b c rest next hblock hline ih => exact ih.cons_cons b
  | case9 quote b c rest next hblock hline ih => exact ih.cons_cons b

theorem lines_eq_splitOn (text : Bytes) : lines text = text.splitOn Byte.newline := by
  induction text with
  | nil => simp [lines]
  | cons b rest ih =>
      rw [List.splitOn_cons_eq_if_modifyHead, ← ih]
      by_cases hb : b = Byte.newline
      · simp [lines, hb]
      · obtain ⟨line, others, hlines, hcons⟩ := exists_lines_cons rest hb
        simp [hcons, hlines, hb]

theorem stripLines_intercalate {texts : List Bytes} (hne : texts ≠ [])
    (h : ∀ line ∈ texts, Byte.newline ∉ line) :
    stripLines ([Byte.newline].intercalate texts) =
      [Byte.space].intercalate (texts.map (cutLine .outside)) := by
  rw [stripLines, lines_eq_splitOn, List.splitOn_intercalate _ h hne]

/-- What is stripped of comments is one line as before. -/
theorem newline_not_mem_stripBlocks {line : Bytes} (h : Byte.newline ∉ line) :
    Byte.newline ∉ stripBlocks line :=
  fun hmem => h ((dropBlocks_sublist _ line).subset hmem)

theorem strip_line {line : Bytes} (h : Byte.newline ∉ line) :
    strip line = cutLine .outside (stripBlocks line) := by
  have hone := stripLines_intercalate (List.cons_ne_nil (stripBlocks line) [])
    (List.forall_mem_singleton.mpr (newline_not_mem_stripBlocks h))
  simpa [strip] using hone

/-- A line tells the others nothing but that it leaves a block comment open: an open string, a
backslash at its end, an apostrophe and a line comment are its own affair. -/
theorem strip_intercalate {texts : List Bytes}
    (h : ∀ line ∈ texts, Byte.newline ∉ line ∧ lastRegion line ≠ .block) :
    strip ([Byte.newline].intercalate texts) = [Byte.space].intercalate (texts.map strip) := by
  by_cases hne : texts = []
  · rw [hne]
    rfl
  · have hstripped : ∀ line ∈ texts.map stripBlocks, Byte.newline ∉ line := by
      rintro _ hmem
      obtain ⟨line, hline, rfl⟩ := List.mem_map.mp hmem
      exact newline_not_mem_stripBlocks (h line hline).1
    have hlines : texts.map strip = texts.map fun line => cutLine .outside (stripBlocks line) :=
      List.map_congr_left fun line hline => strip_line (h line hline).1
    rw [strip, stripBlocks_intercalate fun line hline => (h line hline).2,
      stripLines_intercalate (by simpa using hne) hstripped, List.map_map, hlines]
    rfl

/-- Lines with an open string that ends in a backslash, with an apostrophe that hides a marker, with
quotes in comments, and with a slash at the end. -/
def damaged : List Bytes :=
  [Text.encode "a = \"b // c\\", Text.encode "it's # d", Text.encode "/* \" */ e // f \" /*",
    Text.encode "'", Text.encode "g /", Text.encode "* h */ # \""]

theorem strip_intercalate_damaged :
    (∀ line ∈ damaged, Byte.newline ∉ line ∧ lastRegion line ≠ .block) ∧
      strip ([Byte.newline].intercalate damaged) = [Byte.space].intercalate (damaged.map strip) ∧
      strip ([Byte.newline].intercalate damaged) =
        Text.encode "a = \"b // c\\ it's # d  e  ' g / * h */ " := by
  have h : ∀ line ∈ damaged, Byte.newline ∉ line ∧ lastRegion line ≠ .block := by decide +kernel
  have hjoined : [Byte.space].intercalate (damaged.map strip) =
      Text.encode "a = \"b // c\\ it's # d  e  ' g / * h */ " := by decide +kernel
  exact ⟨h, strip_intercalate h, (strip_intercalate h).trans hjoined⟩

end HclToJson.Comment
