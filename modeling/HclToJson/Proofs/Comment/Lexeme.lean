import Mathlib.Data.List.Chain
import HclToJson.Proofs.Comment.OnePass

namespace HclToJson.Comment

/-- A byte of a string that `mark` closes, or a backslash with the byte behind it. -/
inductive Piece (mark : UInt8)
  | plain (b : UInt8) (h : b ≠ mark ∧ b ≠ Byte.backslash ∧ b ≠ Byte.newline)
  | escaped (b : UInt8) (h : b ≠ Byte.newline)

def Piece.bytes {mark : UInt8} : Piece mark → Bytes
  | plain b _ => [b]
  | escaped b _ => [Byte.backslash, b]

inductive LineMarker
  | hash
  | slashes

def LineMarker.bytes : LineMarker → Bytes
  | hash => [Byte.hash]
  | slashes => [Byte.slash, Byte.slash]

inductive Lexeme
  | code (b : UInt8)
      (h : ¬ IsMark b ∧ b ≠ Byte.newline ∧ b ≠ Byte.hash ∧ b ≠ Byte.slash)
  | slash
  | string (mark : UInt8) (h : IsMark mark) (content : List (Piece mark))
  | blockComment (content : Bytes) (h : ¬ [Byte.star, Byte.slash] <:+: content)
  | lineComment (marker : LineMarker) (content : Bytes) (h : Byte.newline ∉ content)
  | newline

namespace Lexeme

def bytes : Lexeme → Bytes
  | code b _ => [b]
  | slash => [Byte.slash]
  | string mark _ content => mark :: (content.flatMap Piece.bytes ++ [mark])
  | blockComment content _ => Byte.slash :: Byte.star :: (content ++ [Byte.star, Byte.slash])
  | lineComment marker content _ => marker.bytes ++ content
  | newline => [Byte.newline]

/-- What is left of a lexeme without comments on one line. -/
def stripped : Lexeme → Bytes
  | blockComment .. | lineComment .. => []
  | newline => [Byte.space]
  | lexeme => lexeme.bytes

/-- A slash may not stand before what would make a comment of it, and a line comment goes on to the
end of its line. -/
def MayPrecede : Lexeme → Lexeme → Prop
  | slash, next => next.bytes.head? ≠ some Byte.slash ∧ next.bytes.head? ≠ some Byte.star
  | lineComment .., next => next = newline
  | _, _ => True

theorem head?_bytes_append (lexeme : Lexeme) (rest : Bytes) :
    (lexeme.bytes ++ rest).head? = lexeme.bytes.head? := by
  cases lexeme with
  | lineComment marker content h => cases marker <;> rfl
  | _ => rfl

end Lexeme

theorem scan_code_newline (rest : Bytes) :
    scan .code (Byte.newline :: rest) = Byte.space :: scan .code rest := by
  cases rest <;> simp [scan]

theorem scan_code_plain {b : UInt8}
    (h : ¬ IsMark b ∧ b ≠ Byte.newline ∧ b ≠ Byte.hash ∧ b ≠ Byte.slash) (rest : Bytes) :
    scan .code (b :: rest) = b :: scan .code rest := by
  obtain ⟨hmark, hnewline, hhash, hslash⟩ := h
  cases rest <;> simp [scan, hmark, hnewline, hhash, hslash]

theorem scan_code_slash {rest : Bytes} (hslash : rest.head? ≠ some Byte.slash)
    (hstar : rest.head? ≠ some Byte.star) :
    scan .code (Byte.slash :: rest) = Byte.slash :: scan .code rest := by
  cases rest with
  | nil => rfl
  | cons c rest =>
      have hc : c ≠ Byte.slash := fun heq => hslash (by simp [heq])
      have hc' : c ≠ Byte.star := fun heq => hstar (by simp [heq])
      have hne : Byte.slash ≠ Byte.newline ∧ Byte.slash ≠ Byte.hash ∧ ¬ IsMark Byte.slash := by
        decide
      rw [scan, if_neg hne.1, if_neg (by simp [hc']), if_neg (by simp [hc, hne.2.1]),
        if_neg hne.2.2]

theorem scan_code_mark {mark : UInt8} (h : IsMark mark) (rest : Bytes) (hrest : rest ≠ []) :
    scan .code (mark :: rest) = mark :: scan (.string mark) rest := by
  obtain ⟨c, rest, rfl⟩ := List.exists_cons_of_ne_nil hrest
  obtain ⟨hnewline, hslash, hhash, -⟩ := h.ne
  rw [scan, if_neg hnewline, if_neg (by simp [hslash]), if_neg (by simp [hslash, hhash]), if_pos h]

theorem scan_string_piece {mark : UInt8} (piece : Piece mark) (rest : Bytes) :
    scan (.string mark) (piece.bytes ++ rest) = piece.bytes ++ scan (.string mark) rest := by
  cases piece with
  | plain b hb =>
      obtain ⟨hmark, hbackslash, hnewline⟩ := hb
      simp [Piece.bytes, scan, hmark, hbackslash, hnewline]
  | escaped b hb =>
      have hne : Byte.backslash ≠ Byte.newline := by decide
      simp [Piece.bytes, scan, hb, hne]

theorem scan_string_content {mark : UInt8} (h : IsMark mark) (content : List (Piece mark))
    (rest : Bytes) :
    scan (.string mark) (content.flatMap Piece.bytes ++ mark :: rest) =
      content.flatMap Piece.bytes ++ mark :: scan .code rest := by
  induction content with
  | nil =>
      obtain ⟨hnewline, -, -, hbackslash⟩ := h.ne
      simp [scan, hnewline, hbackslash]
  | cons piece content ih =>
      rw [List.flatMap_cons, List.append_assoc, scan_string_piece, ih, List.append_assoc]

theorem scan_blockComment_content {content : Bytes}
    (h : ¬ [Byte.star, Byte.slash] <:+: content) (rest : Bytes) :
    scan .blockComment (content ++ Byte.star :: Byte.slash :: rest) = scan .code rest := by
  induction content with
  | nil => simp [scan]
  | cons b content ih =>
      have hcontent : ¬ [Byte.star, Byte.slash] <:+: content := fun hin =>
        h (hin.trans (List.suffix_cons b content).isInfix)
      cases content with
      | nil =>
          have hne : Byte.star ≠ Byte.slash := by decide
          rw [← ih hcontent, List.cons_append, List.nil_append, scan, if_neg (by simp [hne])]
      | cons c content =>
          have hopen : ¬ (b = Byte.star ∧ c = Byte.slash) := by
            rintro ⟨rfl, rfl⟩
            exact h (List.prefix_append [Byte.star, Byte.slash] content).isInfix
          rw [← ih hcontent, List.cons_append, List.cons_append, scan, if_neg hopen]

theorem scan_lineComment_content {content rest : Bytes} (h : Byte.newline ∉ content)
    (hrest : rest = [] ∨ rest.head? = some Byte.newline) :
    scan .lineComment (content ++ rest) = scan .code rest := by
  induction content with
  | nil =>
      rcases hrest with rfl | hrest
      · rfl
      · obtain ⟨rest, rfl⟩ := List.head?_eq_some_iff.mp hrest
        rw [List.nil_append, scan_code_newline]
        simp [scan]
  | cons b content ih =>
      obtain ⟨hb, hcontent⟩ : Byte.newline ≠ b ∧ Byte.newline ∉ content := by simpa using h
      rw [List.cons_append, scan, if_neg (Ne.symm hb), ih hcontent]

theorem scan_lineMarker (marker : LineMarker) (rest : Bytes) :
    scan .code (marker.bytes ++ rest) = scan .lineComment rest := by
  cases marker with
  | hash => cases rest <;> rfl
  | slashes => cases rest <;> rfl

namespace Lexeme

def Ends : Lexeme → Bytes → Prop
  | slash, rest => rest.head? ≠ some Byte.slash ∧ rest.head? ≠ some Byte.star
  | lineComment .., rest => rest = [] ∨ rest.head? = some Byte.newline
  | _, _ => True

theorem ends_nil (lexeme : Lexeme) : lexeme.Ends [] := by
  cases lexeme <;> simp [Ends]

theorem MayPrecede.ends {lexeme next : Lexeme} (h : lexeme.MayPrecede next) (rest : Bytes) :
    lexeme.Ends (next.bytes ++ rest) := by
  cases lexeme with
  | slash =>
      rw [Ends, head?_bytes_append]
      exact h
  | lineComment marker content hcontent =>
      obtain rfl : next = newline := h
      exact Or.inr rfl
  | _ => trivial

theorem scan_bytes_append {lexeme : Lexeme} {rest : Bytes} (h : lexeme.Ends rest) :
    scan .code (lexeme.bytes ++ rest) = lexeme.stripped ++ scan .code rest := by
  cases lexeme with
  | code b hb => exact scan_code_plain hb rest
  | slash => exact scan_code_slash h.1 h.2
  | string mark hmark content =>
      simp only [bytes, stripped, List.cons_append, List.append_assoc, List.nil_append]
      rw [scan_code_mark hmark _ (by simp), scan_string_content hmark]
  | blockComment content hcontent =>
      simp only [bytes, stripped, List.cons_append, List.append_assoc, List.nil_append]
      exact scan_blockComment_content hcontent rest
  | lineComment marker content hcontent =>
      simp only [bytes, stripped, List.append_assoc, List.nil_append]
      rw [scan_lineMarker, scan_lineComment_content hcontent h]
  | newline => exact scan_code_newline rest

theorem scan_flatMap_bytes {lexemes : List Lexeme} (h : lexemes.IsChain MayPrecede) :
    scan .code (lexemes.flatMap bytes) = lexemes.flatMap stripped := by
  induction lexemes with
  | nil => rfl
  | cons lexeme lexemes ih =>
      have hends : lexeme.Ends (lexemes.flatMap bytes) := by
        cases lexemes with
        | nil => exact ends_nil lexeme
        | cons next lexemes => exact (List.isChain_cons_cons.mp h).1.ends _
      rw [List.flatMap_cons, List.flatMap_cons, scan_bytes_append hends, ih h.tail]

/-- Comments and only comments are removed, whatever the lexemes hold of each other's markers. -/
theorem strip_lexemes {lexemes : List Lexeme} (h : lexemes.IsChain MayPrecede) :
    strip (lexemes.flatMap bytes) = lexemes.flatMap stripped := by
  rw [strip, stripLines_stripBlocks, scan_flatMap_bytes h]

/-- A string, a block comment and a line comment, each with markers of the others. -/
def mixed : List Lexeme :=
  [.code 0x61 (by decide), .slash,
    .string Byte.quote (Or.inl rfl)
      [.plain Byte.hash (by decide), .escaped Byte.quote (by decide),
        .plain Byte.slash (by decide), .plain Byte.star (by decide),
        .plain Byte.apostrophe (by decide)],
    .blockComment [Byte.apostrophe, Byte.quote, Byte.slash, Byte.slash, Byte.hash, Byte.star]
      (by decide),
    .lineComment .slashes [Byte.slash, Byte.star, Byte.quote] (by decide), .newline,
    .slash, .code 0x62 (by decide)]

theorem strip_mixed :
    mixed.IsChain MayPrecede ∧ strip (mixed.flatMap bytes) = mixed.flatMap stripped := by
  have h : mixed.IsChain MayPrecede := by
    simp [mixed, MayPrecede, bytes, Byte.slash, Byte.star, Byte.quote]
  exact ⟨h, strip_lexemes h⟩

end Lexeme

end HclToJson.Comment
