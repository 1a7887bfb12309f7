import HclToJson.Proofs.Comment.Lines

namespace HclToJson.Comment

/-- What the first pass keeps of a text, from inside of a region: each byte with the region that is
behind it. -/
def kept : Region → Bytes → List (UInt8 × Region)
  | _, [] => []
  | .block, [_] => []
  | .block, b :: c :: rest =>
      if b = Byte.star ∧ c = Byte.slash then kept (.code .outside) rest else kept .block (c :: rest)
  | .line, b :: rest =>
      if b = Byte.newline then (b, .code .outside) :: kept (.code .outside) rest
      else (b, .line) :: kept .line rest
  | .code quote, [b] => [(b, quote.behind b [])]
  | .code quote, b :: c :: rest =>
      if quote.next b = .outside ∧ b = Byte.slash ∧ c = Byte.star then kept .block rest
      else (b, quote.behind b (c :: rest)) :: kept (quote.behind b (c :: rest)) (c :: rest)

theorem kept_code (quote : Quote) (b : UInt8) (rest : Bytes) :
    kept (.code quote) (b :: rest) =
      if quote.next b = .outside ∧ b = Byte.slash ∧ rest.head? = some Byte.star then
        kept .block rest.tail
      else (b, quote.behind b rest) :: kept (quote.behind b rest) rest := by
  cases rest with
  | nil => simp [kept]
  | cons c rest => simp [kept]

theorem map_fst_kept (region : Region) (text : Bytes) :
    (kept region text).map Prod.fst = dropBlocks region text := by
  fun_induction kept region text with
  | case1 region => simp [dropBlocks]
  | case2 b => simp [dropBlocks]
  | case3 b c rest hclose ih => rw [dropBlocks, if_pos hclose, ih]
  | case4 b c rest hopen ih => rw [dropBlocks, if_neg hopen, ih]
  | case5 rest ih => rw [dropBlocks, if_pos rfl, List.map_cons, ih]
  | case6 b rest hb ih => rw [dropBlocks, if_neg hb, List.map_cons, ih]
  | case7 quote b => simp [dropBlocks]
  | case8 quote b c rest hblock ih =>
      have hopens : quote.next b = .outside ∧ b = Byte.slash ∧
          (c :: rest).head? = some Byte.star := by simpa using hblock
      rw [dropBlocks_code, if_pos hopens, List.tail_cons, ih]
  | case9 quote b c rest hblock ih =>
      have hopens : ¬ (quote.next b = .outside ∧ b = Byte.slash ∧
          (c :: rest).head? = some Byte.star) := by simpa using hblock
      rw [dropBlocks_code, if_neg hopens, List.map_cons, ih]

/-- No comment is cut out behind a slash of the code: with the star or the slash of its opening
delimiter the slash would have opened a comment itself. -/
theorem head?_dropBlocks_behind {quote : Quote} (h : quote.next Byte.slash = .outside)
    (rest : Bytes) :
    (dropBlocks (quote.behind Byte.slash rest) rest).head? = rest.head? := by
  cases rest with
  | nil => simp [dropBlocks]
  | cons c rest =>
      have hnewline : Byte.slash ≠ Byte.newline := by decide
      rw [Quote.behind, if_neg hnewline]
      by_cases hc : c = Byte.slash
      · have hopens : opensLine Byte.slash (c :: rest) = true := by
          rw [hc]
          rfl
        rw [if_pos ⟨h, hopens⟩, head?_dropBlocks_line, List.head?_cons]
      · have hopens : ¬ opensLine Byte.slash (c :: rest) = true := by
          have hhash : Byte.slash ≠ Byte.hash := by decide
          simp [opensLine, hc, hhash]
        rw [if_neg fun hline => hopens hline.2, head?_dropBlocks_code _ rest hc, List.head?_cons]

theorem opensLine_dropBlocks_behind {quote : Quote} {b : UInt8} (h : quote.next b = .outside)
    (rest : Bytes) :
    opensLine b (dropBlocks (quote.behind b rest) rest) = opensLine b rest := by
  by_cases hb : b = Byte.slash
  · subst b
    exact opensLine_congr _ (head?_dropBlocks_behind h rest)
  · simp [opensLine, hb]

theorem behind_congr {quote : Quote} {b : UInt8} {after after' : Bytes}
    (h : quote.next b = .outside → opensLine b after = opensLine b after') :
    quote.behind b after = quote.behind b after' := by
  by_cases hnext : quote.next b = .outside
  · rw [Quote.behind, Quote.behind, h hnext]
  · simp [Quote.behind, hnext]

theorem behind_dropBlocks_behind (quote : Quote) (b : UInt8) (rest : Bytes) :
    quote.behind b (dropBlocks (quote.behind b rest) rest) = quote.behind b rest :=
  behind_congr fun h => opensLine_dropBlocks_behind h rest

/-- The byte of code that the first run keeps is kept by a second run, with the same region behind
it. -/
theorem kept_dropBlocks_code {quote : Quote} {b : UInt8} {rest : Bytes}
    (hblock : ¬ (quote.next b = .outside ∧ b = Byte.slash ∧ rest.head? = some Byte.star))
    (hrest : kept (quote.behind b rest) (dropBlocks (quote.behind b rest) rest) =
      kept (quote.behind b rest) rest) :
    kept (.code quote) (dropBlocks (.code quote) (b :: rest)) =
      (b, quote.behind b rest) :: kept (quote.behind b rest) rest := by
  have hdropped : ¬ (quote.next b = .outside ∧ b = Byte.slash ∧
      (dropBlocks (quote.behind b rest) rest).head? = some Byte.star) := by
    rintro ⟨hnext, rfl, hhead⟩
    rw [head?_dropBlocks_behind hnext] at hhead
    exact hblock ⟨hnext, rfl, hhead⟩
  rw [dropBlocks_code, if_neg hblock, kept_code, if_neg hdropped, behind_dropBlocks_behind, hrest]

/-- Where a second run is while the first one is inside of a region: it meets no block comment. -/
def Region.again : Region → Region
  | .code quote => .code quote
  | .line => .line
  | .block => .code .outside

theorem again_behind (quote : Quote) (b : UInt8) (rest : Bytes) :
    (quote.behind b rest).again = quote.behind b rest := by
  rw [Quote.behind]
  split
  · rfl
  · split <;> rfl

theorem kept_dropBlocks {region : Region} (h : region.WellMarked) (text : Bytes) :
    kept region.again (dropBlocks region text) = kept region text := by
  fun_induction kept region text with
  | case1 region => simp [dropBlocks, kept]
  | case2 b => simp [dropBlocks, kept]
  | case3 b c rest hclose ih =>
      rw [dropBlocks, if_pos hclose]
      exact ih trivial
  | case4 b c rest hopen ih =>
      rw [dropBlocks, if_neg hopen]
      exact ih trivial
  | case5 rest ih =>
      rw [dropBlocks, if_pos rfl, Region.again, kept, if_pos rfl]
      exact congrArg (_ :: ·) (ih trivial)
  | case6 b rest hb ih =>
      rw [dropBlocks, if_neg hb, Region.again, kept, if_neg hb]
      exact congrArg (_ :: ·) (ih trivial)
  | case7 quote b => simp [dropBlocks, Region.again, kept]
  | case8 quote b c rest hblock ih =>
      -- The second run goes on in front of the comment, where it is outside of strings as well.
      have hopens : quote.next b = .outside ∧ b = Byte.slash ∧
          (c :: rest).head? = some Byte.star := by simpa using hblock
      have hmark : ¬ IsMark b := by
        rw [hblock.2.1]
        decide
      rw [dropBlocks_code, if_pos hopens, Region.again, h.eq_outside hmark hblock.1]
      exact ih trivial
  | case9 quote b c rest hblock ih =>
      have hrest := ih (h.behind b (c :: rest))
      rw [again_behind] at hrest
      exact kept_dropBlocks_code (by simpa using hblock) hrest

/-- From inside of a region to the end, no byte of a text opens a block comment. -/
def OpensNoBlock : Region → Bytes → Prop
  | _, [] => True
  | .code quote, b :: rest =>
      ¬ (quote.next b = .outside ∧ b = Byte.slash ∧ rest.head? = some Byte.star) ∧
        OpensNoBlock (quote.behind b rest) rest
  | .line, b :: rest =>
      OpensNoBlock (if b = Byte.newline then .code .outside else .line) rest
  | .block, _ :: _ => False

/-- The first pass leaves a text as it is if there is nothing in it to cut out. -/
theorem dropBlocks_eq_self_iff (region : Region) (text : Bytes) :
    dropBlocks region text = text ↔ OpensNoBlock region text := by
  induction text generalizing region with
  | nil => simp [dropBlocks, OpensNoBlock]
  | cons b rest ih =>
      have hshort : ∀ region text, text.length ≤ rest.length →
          dropBlocks region text ≠ b :: rest := by
        intro region text htext heq
        have hle := (dropBlocks_sublist region text).length_le
        rw [heq, List.length_cons] at hle
        omega
      cases region with
      | code quote =>
          rw [dropBlocks_code, OpensNoBlock, ← ih]
          by_cases hblock : quote.next b = .outside ∧ b = Byte.slash ∧
              rest.head? = some Byte.star
          · rw [if_pos hblock]
            exact ⟨fun h => absurd h (hshort _ rest.tail (by simp)), fun h => absurd hblock h.1⟩
          · rw [if_neg hblock, List.cons_inj_right]
            exact ⟨fun h => ⟨hblock, h⟩, And.right⟩
      | line => rw [dropBlocks, OpensNoBlock, List.cons_inj_right, ih]
      | block =>
          cases rest with
          | nil => simp [dropBlocks, OpensNoBlock]
          | cons c rest =>
              rw [dropBlocks]
              split
              · simp [hshort _ rest (by simp), OpensNoBlock]
              · simp [hshort _ (c :: rest) (by simp), OpensNoBlock]

/-- A text whose block comments are cut out has none: nothing in it opens one, and cutting once more
changes nothing. Whatever the bytes are that meet there, each is read as it was in the whole text,
as code, in a string or in a line comment. -/
theorem stripBlocks_stable (text : Bytes) :
    stripBlocks (stripBlocks text) = stripBlocks text ∧
      kept (.code .outside) (stripBlocks text) = kept (.code .outside) text ∧
      OpensNoBlock (.code .outside) (stripBlocks text) := by
  have hout : (Region.code .outside).WellMarked := trivial
  have hkept : kept (.code .outside) (stripBlocks text) = kept (.code .outside) text :=
    kept_dropBlocks hout text
  have hagain : stripBlocks (stripBlocks text) = stripBlocks text := calc
    stripBlocks (stripBlocks text)
    _ = (kept (.code .outside) (stripBlocks text)).map Prod.fst := (map_fst_kept _ _).symm
    _ = (kept (.code .outside) text).map Prod.fst := by rw [hkept]
    _ = stripBlocks text := map_fst_kept _ _
  exact ⟨hagain, hkept, (dropBlocks_eq_self_iff _ _).mp hagain⟩

/-- Comments back to back, at a quote, at a slash, behind a star and over two lines, and delimiters
in a string, in a line comment, in a string that is left open and at the end. -/
example :
    stripBlocks (Text.encode "/**//*/ x */a/ /***/'/*'/*\"\n*/*/**// // /*\n\"\\\"/*\n/*/") =
      Text.encode "a/ '/*'*/ // /*\n\"\\\"/*\n" := by
  decide +kernel

end HclToJson.Comment
