import HclToJson.Grammar.Blank
import HclToJson.Proofs.Comment.Lexeme
import HclToJson.Proofs.Grammar.Parser

namespace HclToJson.Grammar

open Comment

/-- White space, a line end or a comment. A line comment has its line end with it. -/
inductive Blank
  | space
  | tab
  | newline
  | blockComment (content : Bytes) (h : ¬ [Byte.star, Byte.slash] <:+: content)
  | lineComment (marker : LineMarker) (content : Bytes)
      (h : ∀ b ∈ content, b ≠ Byte.newline ∧ b ≠ Byte.carriageReturn)

namespace Blank

def bytes : Blank → Bytes
  | space => [Byte.space]
  | tab => [Byte.tab]
  | newline => [Byte.newline]
  | blockComment content _ => Byte.slash :: Byte.star :: (content ++ [Byte.star, Byte.slash])
  | lineComment marker content _ => marker.bytes ++ content ++ [Byte.newline]

/-- A blank that stays on its line. -/
def isInline : Blank → Bool
  | space | tab | blockComment .. => true
  | newline | lineComment .. => false

end Blank

abbrev Gap := List Blank

def Gap.bytes (gap : Gap) : Bytes := gap.flatMap Blank.bytes

/-- Blanks that stay on their line. -/
abbrev Line := { gap : Gap // ∀ blank ∈ gap, blank.isInline = true }

abbrev Line.bytes (line : Line) : Bytes := Gap.bytes line.val

theorem Gap.forall_head {p : UInt8 → Prop} (gap : Gap) {rest : Bytes}
    (hblank : ∀ b ∈ [Byte.space, Byte.tab, Byte.newline, Byte.slash, Byte.hash], p b)
    (hrest : ∀ b ∈ rest.head?, p b) : ∀ b ∈ (gap.bytes ++ rest).head?, p b := by
  cases gap with
  | nil => exact hrest
  | cons blank gap =>
      have hcons : ∀ {c : UInt8} {text : Bytes}, p c → ∀ b ∈ (c :: text).head?, p b := by
        intro c text hc b hb
        obtain rfl : c = b := by simpa using hb
        exact hc
      cases blank with
      | lineComment marker content hcontent =>
          cases marker <;> exact hcons (hblank _ (by simp))
      | _ => exact hcons (hblank _ (by simp))

/-- A text that starts with none of the bytes that blanks start with. -/
def Solid (text : Bytes) : Prop :=
  ∀ b ∈ text.head?, b ∉ [Byte.space, Byte.tab, Byte.newline, Byte.carriageReturn, Byte.slash,
    Byte.hash]

theorem Solid.blankPiece {text : Bytes} (h : Solid text) (newlines : Bool) :
    blankPiece newlines text = 0 := by
  cases text with
  | nil => rfl
  | cons b rest =>
      have hb := h b rfl
      simp only [List.mem_cons, List.not_mem_nil, or_false, not_or] at hb
      obtain ⟨hspace, htab, hnewline, hreturn, hslash, hhash⟩ := hb
      simp [Grammar.blankPiece, blockCommentLength?, lineCommentLength?, hspace, htab, hnewline,
        hreturn, hslash, hhash]

theorem closeLength?_cons (b : UInt8) (rest : Bytes)
    (h : ¬ (b = Byte.star ∧ rest.head? = some Byte.slash)) :
    closeLength? (b :: rest) = (closeLength? rest).map (· + 1) := by
  rw [closeLength?.eq_def]
  split
  · rename_i heq
    obtain ⟨rfl, rfl⟩ := List.cons.inj heq
    exact absurd ⟨rfl, rfl⟩ h
  · rename_i heq
    obtain ⟨rfl, rfl⟩ := List.cons.inj heq
    rfl
  · rename_i heq
    cases heq

theorem closeLength?_content {content : Bytes} (h : ¬ [Byte.star, Byte.slash] <:+: content)
    (rest : Bytes) :
    closeLength? (content ++ Byte.star :: Byte.slash :: rest) = some (content.length + 2) := by
  induction content with
  | nil => rfl
  | cons b content ih =>
      have hcontent : ¬ [Byte.star, Byte.slash] <:+: content := fun hin =>
        h (hin.trans (List.suffix_cons b content).isInfix)
      have hopen : ¬ (b = Byte.star ∧
          (content ++ Byte.star :: Byte.slash :: rest).head? = some Byte.slash) := by
        rintro ⟨rfl, hhead⟩
        cases content with
        | nil =>
            have hne : Byte.star ≠ Byte.slash := by decide
            exact hne (by simpa using hhead)
        | cons c content =>
            obtain rfl : c = Byte.slash := by simpa using hhead
            exact h (List.prefix_append [Byte.star, Byte.slash] content).isInfix
      rw [List.cons_append, closeLength?_cons b _ hopen, ih hcontent]
      rfl

theorem newlineLength_of_ne {b : UInt8} (h : b ≠ Byte.newline ∧ b ≠ Byte.carriageReturn)
    (rest : Bytes) : newlineLength (b :: rest) = 0 := by
  rw [newlineLength.eq_def]
  split
  · rename_i heq
    exact absurd (List.cons.inj heq).1 h.1
  · rename_i heq
    exact absurd (List.cons.inj heq).1 h.2
  · rfl

theorem lineLength?_content {content : Bytes}
    (h : ∀ b ∈ content, b ≠ Byte.newline ∧ b ≠ Byte.carriageReturn) (rest : Bytes) :
    lineLength? (content ++ Byte.newline :: rest) = some content.length := by
  induction content with
  | nil => rfl
  | cons b content ih =>
      have hb := h b List.mem_cons_self
      have hrest := ih fun c hc => h c (List.mem_cons_of_mem b hc)
      rw [List.cons_append, lineLength?, newlineLength_of_ne hb, if_neg (by decide), if_neg hb.2,
        hrest]
      rfl

/-- What blanks are passed over: those that stay on their line, or all. -/
def Blank.passes (newlines : Bool) (blank : Blank) : Bool := newlines || blank.isInline

theorem blankPiece_of_not_passes {blank : Blank} {newlines : Bool}
    (h : blank.passes newlines = false) (rest : Bytes) :
    blankPiece newlines (blank.bytes ++ rest) = 0 := by
  obtain ⟨rfl, hline⟩ : newlines = false ∧ blank.isInline = false := by
    simpa [Blank.passes] using h
  cases blank with
  | newline => rfl
  | lineComment marker content hcontent => cases marker <;> rfl
  | _ => simp [Blank.isInline] at hline

theorem blankLength_append {newlines : Bool} {piece : Bytes} {rest : Bytes} (b : UInt8)
    (fuel : Bytes) (hne : piece ≠ [])
    (hpiece : blankPiece newlines (piece ++ rest) = piece.length) :
    blankLength newlines (b :: fuel) (piece ++ rest) =
      piece.length + blankLength newlines fuel rest := by
  have hpos : piece.length ≠ 0 := fun h => hne (List.eq_nil_of_length_eq_zero h)
  rw [blankLength, hpiece]
  split
  · rename_i heq
    exact absurd heq hpos
  · rw [List.drop_left]

theorem blankPiece_blockComment {content : Bytes} (h : ¬ [Byte.star, Byte.slash] <:+: content)
    (newlines : Bool) (rest : Bytes) :
    blankPiece newlines ((Blank.blockComment content h).bytes ++ rest) =
      (Blank.blockComment content h).bytes.length := by
  have hlength : blockCommentLength? ((Blank.blockComment content h).bytes ++ rest) =
      some (Blank.blockComment content h).bytes.length := by
    change (closeLength? (content ++ [Byte.star, Byte.slash] ++ rest)).map (· + 2) = _
    rw [List.append_assoc, List.cons_append, List.singleton_append, closeLength?_content h]
    simp [Blank.bytes]
  have hspace : ¬ (Byte.slash = Byte.space ∨ Byte.slash = Byte.tab) := by decide
  have hnewline : ¬ (Byte.slash = Byte.newline ∨ Byte.slash = Byte.carriageReturn) := by decide
  simp only [Blank.bytes, List.cons_append] at hlength ⊢
  simp only [blankPiece, hspace, hnewline, and_false, ↓reduceIte, hlength]

theorem lineCommentLength?_content (marker : LineMarker) {content : Bytes}
    (h : ∀ b ∈ content, b ≠ Byte.newline ∧ b ≠ Byte.carriageReturn) (rest : Bytes) :
    lineCommentLength? (marker.bytes ++ content ++ Byte.newline :: rest) =
      some (marker.bytes ++ content).length := by
  have hline := lineLength?_content h rest
  cases marker with
  | hash =>
      change (lineLength? (content ++ Byte.newline :: rest)).map (· + 1) = _
      rw [hline]
      rfl
  | slashes =>
      change (lineLength? (content ++ Byte.newline :: rest)).map (· + 2) = _
      rw [hline]
      rfl

theorem blankPiece_lineComment (marker : LineMarker) {content : Bytes}
    (h : ∀ b ∈ content, b ≠ Byte.newline ∧ b ≠ Byte.carriageReturn) (rest : Bytes) :
    blankPiece true (marker.bytes ++ content ++ Byte.newline :: rest) =
      (marker.bytes ++ content).length := by
  have hpiece : blankPiece true (marker.bytes ++ content ++ Byte.newline :: rest) =
      (lineCommentLength? (marker.bytes ++ content ++ Byte.newline :: rest)).getD 0 := by
    cases marker <;> rfl
  rw [hpiece, lineCommentLength?_content marker h, Option.getD_some]

theorem blankLength_blank {newlines : Bool} {blank : Blank} (h : blank.passes newlines = true)
    {fuel : Bytes} (hfuel : blank.bytes.length ≤ fuel.length) (rest : Bytes) :
    ∃ fuel' : Bytes, fuel.length ≤ fuel'.length + blank.bytes.length ∧
      blankLength newlines fuel (blank.bytes ++ rest) =
        blank.bytes.length + blankLength newlines fuel' rest := by
  have hpos : 0 < blank.bytes.length := by
    cases blank <;> simp only [Blank.bytes, List.length_append, List.length_cons] <;> omega
  obtain ⟨b, fuel, rfl⟩ := List.exists_cons_of_length_pos (Nat.lt_of_lt_of_le hpos hfuel)
  have hne : blank.bytes ≠ [] := List.ne_nil_of_length_pos hpos
  have hone : blankPiece newlines (blank.bytes ++ rest) = blank.bytes.length →
      ∃ fuel' : Bytes, (b :: fuel).length ≤ fuel'.length + blank.bytes.length ∧
        blankLength newlines (b :: fuel) (blank.bytes ++ rest) =
          blank.bytes.length + blankLength newlines fuel' rest := by
    intro hpiece
    refine ⟨fuel, ?_, blankLength_append b fuel hne hpiece⟩
    rw [List.length_cons]
    omega
  cases blank with
  | space => exact hone rfl
  | tab => exact hone rfl
  | newline =>
      obtain rfl : newlines = true := by simpa [Blank.passes, Blank.isInline] using h
      exact hone rfl
  | blockComment content hcontent => exact hone (blankPiece_blockComment hcontent newlines rest)
  | lineComment marker content hcontent =>
      -- The line end behind the comment is a piece of its own.
      obtain rfl : newlines = true := by simpa [Blank.passes, Blank.isInline] using h
      have hmarker : marker.bytes ≠ [] := by cases marker <;> simp [LineMarker.bytes]
      have hcomment : marker.bytes ++ content ≠ [] := by simp [hmarker]
      have hsplit : (Blank.lineComment marker content hcontent).bytes ++ rest =
          marker.bytes ++ content ++ ([Byte.newline] ++ rest) := by simp [Blank.bytes]
      have hlength : (Blank.lineComment marker content hcontent).bytes.length =
          (marker.bytes ++ content).length + 1 := by simp [Blank.bytes]; omega
      have hpiece : blankPiece true (marker.bytes ++ content ++ ([Byte.newline] ++ rest)) =
          (marker.bytes ++ content).length := blankPiece_lineComment marker hcontent rest
      have hlong : 0 < (marker.bytes ++ content).length := List.length_pos_of_ne_nil hcomment
      have hshort : 0 < fuel.length := by
        rw [hlength, List.length_cons] at hfuel
        omega
      obtain ⟨c, fuel, rfl⟩ := List.exists_cons_of_length_pos hshort
      refine ⟨fuel, ?_, ?_⟩
      · simp only [List.length_cons, hlength]
        omega
      · rw [hsplit, blankLength_append b (c :: fuel) hcomment hpiece,
          blankLength_append c fuel (by simp) rfl, hlength]
        simp only [List.length_singleton]
        omega

theorem blankLength_gap {newlines : Bool} {gap : Gap} {rest : Bytes}
    (h : ∀ blank ∈ gap, blank.passes newlines = true) (hrest : blankPiece newlines rest = 0)
    {fuel : Bytes} (hfuel : gap.bytes.length ≤ fuel.length) :
    blankLength newlines fuel (gap.bytes ++ rest) = gap.bytes.length := by
  induction gap generalizing fuel with
  | nil =>
      cases fuel with
      | nil => rfl
      | cons b fuel => simp [Gap.bytes, blankLength, hrest]
  | cons blank gap ih =>
      have hbytes : Gap.bytes (blank :: gap) = blank.bytes ++ Gap.bytes gap := rfl
      rw [hbytes, List.length_append] at hfuel
      have hblank : blank.bytes.length ≤ fuel.length := by omega
      obtain ⟨fuel', hlength, hpassed⟩ :=
        blankLength_blank (h blank List.mem_cons_self) hblank (Gap.bytes gap ++ rest)
      have hfuel' : (Gap.bytes gap).length ≤ fuel'.length := by omega
      have hgap := ih (fun b hb => h b (List.mem_cons_of_mem _ hb)) hfuel'
      rw [hbytes, List.append_assoc, hpassed, hgap, List.length_append]

theorem separator_gap {newlines : Bool} {gap : Gap} {rest : Bytes}
    (h : ∀ blank ∈ gap, blank.passes newlines = true) (hrest : blankPiece newlines rest = 0)
    (pos : Nat) :
    separator newlines ⟨pos, gap.bytes ++ rest⟩ = .ok (⟨⟩, ⟨pos + gap.bytes.length, rest⟩) := by
  have hfuel : gap.bytes.length ≤ (gap.bytes ++ rest).length := by simp
  have hlength := blankLength_gap h hrest hfuel
  simp only [separator, Parser.bind_eq, Parser.ahead_eq, Parser.discard_eq, Parser.take_eq, hlength,
    List.drop_left]

theorem blankLines_gap {gap : Gap} {rest : Bytes} (h : Solid rest) (pos : Nat) :
    blankLines ⟨pos, gap.bytes ++ rest⟩ = .ok (⟨⟩, ⟨pos + gap.bytes.length, rest⟩) :=
  separator_gap (fun _ _ => rfl) (h.blankPiece true) pos

theorem exists_separator_gap (newlines : Bool) (gap : Gap) {rest : Bytes} (hrest : Solid rest)
    (pos : Nat) :
    ∃ front back : Gap, gap = front ++ back ∧
      separator newlines ⟨pos, gap.bytes ++ rest⟩ =
        .ok (⟨⟩, ⟨pos + front.bytes.length, back.bytes ++ rest⟩) ∧
      ∀ blank ∈ back.head?, blank.passes newlines = false := by
  let front := gap.takeWhile (Blank.passes newlines)
  let back := gap.dropWhile (Blank.passes newlines)
  have hsplit : gap = front ++ back := List.takeWhile_append_dropWhile.symm
  have hbytes : gap.bytes ++ rest = Gap.bytes front ++ (Gap.bytes back ++ rest) := by
    rw [← List.append_assoc, Gap.bytes, Gap.bytes, Gap.bytes, ← List.flatMap_append, ← hsplit]
  have hpass : ∀ blank ∈ front, blank.passes newlines = true :=
    List.all_eq_true.mp List.all_takeWhile
  have hstop : ∀ blank ∈ back.head?, blank.passes newlines = false := by
    intro blank hblank
    have hhead := List.head?_dropWhile_not (Blank.passes newlines) gap
    rwa [show (gap.dropWhile (Blank.passes newlines)).head? = some blank from hblank] at hhead
  have hpiece : blankPiece newlines (Gap.bytes back ++ rest) = 0 := by
    cases hback : back with
    | nil => exact hrest.blankPiece newlines
    | cons blank gap' =>
        have hcons : Gap.bytes (blank :: gap') ++ rest =
            blank.bytes ++ (Gap.bytes gap' ++ rest) := by simp [Gap.bytes]
        rw [hback] at hstop
        rw [hcons, blankPiece_of_not_passes (hstop blank rfl)]
  refine ⟨front, back, hsplit, ?_, hstop⟩
  rw [hbytes]
  exact separator_gap hpass hpiece pos

end HclToJson.Grammar
