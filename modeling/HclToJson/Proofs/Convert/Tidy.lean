import HclToJson.Proofs.Grammar.Operands
import HclToJson.Proofs.Text.Normalize

namespace HclToJson.Grammar

open Comment Text

/-- Whether a space is left of a blank. -/
def Blank.isWhite : Blank → Bool
  | blockComment .. => false
  | _ => true

def Gap.tidy (gap : Gap) : Gap := if gap.any Blank.isWhite then [.space] else []

theorem Gap.isInline_tidy (gap : Gap) : ∀ blank ∈ gap.tidy, blank.isInline = true := by
  intro blank hblank
  rw [Gap.tidy] at hblank
  split at hblank
  · obtain rfl : blank = .space := by simpa using hblank
    rfl
  · exact absurd hblank List.not_mem_nil

def Line.tidy (line : Line) : Line := ⟨Gap.tidy line.val, Gap.isInline_tidy line.val⟩

abbrev Ascii (text : Bytes) : Prop := ∀ b ∈ text, b ≤ 0x7F

theorem Ascii.append {front back : Bytes} (hfront : Ascii front) (hback : Ascii back) :
    Ascii (front ++ back) := by
  intro b hb
  exact (List.mem_append.mp hb).elim (hfront b) (hback b)

theorem Ascii.cons {b : UInt8} {rest : Bytes} (hb : b ≤ 0x7F) (hrest : Ascii rest) :
    Ascii (b :: rest) := by
  intro c hc
  rcases List.mem_cons.mp hc with rfl | hc
  · exact hb
  · exact hrest c hc

theorem Ascii.singleton {b : UInt8} (hb : b ≤ 0x7F) : Ascii [b] :=
  List.forall_mem_singleton.mpr hb

/-- The characters of a text of ASCII. -/
def asciiChars (text : Bytes) : List Char := text.map fun b => Char.ofNat b.toNat

/-- The characters that are left of a text without its comments. -/
def stripped (text : Bytes) : List Char := decode (scan .code text)

/-- A byte that is copied outside of strings, as one character that is no white space. -/
abbrev CodeByte (b : UInt8) : Prop :=
  (¬ IsMark b ∧ b ≠ Byte.newline ∧ b ≠ Byte.hash ∧ b ≠ Byte.slash) ∧ b ≤ 0x7F ∧
    isBlank (Char.ofNat b.toNat) = false

theorem decode_ascii {b : UInt8} (h : b ≤ 0x7F) (rest : Bytes) :
    decode (b :: rest) = Char.ofNat b.toNat :: decode rest := by
  have hready : Reading.ready.Proper := trivial
  rw [decode, Reading.run, Reading.next_ascii hready h]
  rfl

theorem decode_append_ascii {text : Bytes} (h : Ascii text) (rest : Bytes) :
    decode (text ++ rest) = asciiChars text ++ decode rest := by
  induction text with
  | nil => rfl
  | cons b text ih =>
      rw [List.cons_append, decode_ascii (h b List.mem_cons_self),
        ih fun c hc => h c (List.mem_cons_of_mem b hc)]
      rfl

theorem collapseBehind_cons_inked {c : Char} (h : isBlank c = false) (rest : List Char) :
    collapseBehind (c :: rest) = c :: collapseBehind rest := by
  have hc : ¬ isBlank c = true := by simp [h]
  rw [collapseBehind, if_neg hc, collapse_cons_inked h]

theorem stripped_plain {b : UInt8}
    (h : (¬ IsMark b ∧ b ≠ Byte.newline ∧ b ≠ Byte.hash ∧ b ≠ Byte.slash) ∧ b ≤ 0x7F)
    (rest : Bytes) : stripped (b :: rest) = Char.ofNat b.toNat :: stripped rest := by
  rw [stripped, scan_code_plain h.1, decode_ascii h.2, stripped]

theorem collapseBehind_code {text : Bytes} (h : ∀ b ∈ text, CodeByte b) (rest : Bytes) :
    collapseBehind (stripped (text ++ rest)) =
      asciiChars text ++ collapseBehind (stripped rest) := by
  induction text with
  | nil => rfl
  | cons b text ih =>
      have hb := h b List.mem_cons_self
      rw [List.cons_append, stripped_plain ⟨hb.1, hb.2.1⟩, collapseBehind_cons_inked hb.2.2,
        ih fun c hc => h c (List.mem_cons_of_mem b hc)]
      rfl

theorem Name.codeBytes (name : Name) : ∀ b ∈ name.bytes, CodeByte b := by
  have hcode : ∀ b, Text.isIdentContinue b = true ∧ b ≤ 0x7F → CodeByte b :=
    Byte.forall_of_lt (by decide +kernel)
  intro b hb
  rcases List.mem_cons.mp hb with rfl | hb
  · refine hcode _ ⟨?_, name.first_start.2⟩
    rw [Text.isIdentContinue, name.first_start.1]
    rfl
  · exact hcode b (name.others_continue b hb)

theorem Numeral.codeBytes (numeral : Numeral) : ∀ b ∈ numeral.bytes, CodeByte b := by
  have hcode : ∀ b, Byte.isDigit b = true → CodeByte b := Byte.forall_of_lt (by decide +kernel)
  intro b hb
  rcases List.mem_cons.mp hb with rfl | hb
  · exact hcode _ numeral.first_digit
  · exact hcode b (numeral.others_digits b hb)

theorem scan_string_printable {content : Bytes} (h : ∀ b ∈ content, Printable b) (rest : Bytes) :
    scan (.string Byte.quote) (content ++ Byte.quote :: rest) =
      content ++ Byte.quote :: scan .code rest := by
  induction content with
  | nil => exact scan_string_content (Or.inl rfl) [] rest
  | cons b content ih =>
      obtain ⟨⟨hquote, hbackslash, -⟩, hlow, -⟩ := h b List.mem_cons_self
      have hnewline : b ≠ Byte.newline := by
        rintro rfl
        exact absurd hlow (by decide)
      have hpiece := scan_string_piece (.plain b ⟨hquote, hbackslash, hnewline⟩)
        (content ++ Byte.quote :: rest)
      rw [List.cons_append, List.cons_append, ← ih fun c hc => h c (List.mem_cons_of_mem b hc)]
      exact hpiece

theorem ascii_quoted {content : Bytes} (h : ∀ b ∈ content, Printable b) :
    Ascii (quoted content) := by
  have hcontent : Ascii content := fun b hb => UInt8.le_trans (h b hb).2.2 (by decide)
  exact Ascii.cons (by decide) (hcontent.append (Ascii.singleton (by decide)))

theorem stripped_quoted {content : Bytes} (h : ∀ b ∈ content, Printable b) (rest : Bytes) :
    stripped (quoted content ++ rest) = asciiChars (quoted content) ++ stripped rest := by
  have hbytes : quoted content ++ rest = Byte.quote :: (content ++ Byte.quote :: rest) := by
    simp [quoted]
  have hscan : scan .code (quoted content ++ rest) = quoted content ++ scan .code rest := by
    rw [hbytes, scan_code_mark (Or.inl rfl) _ (by simp), scan_string_printable h]
    simp [quoted]
  rw [stripped, hscan, decode_append_ascii (ascii_quoted h), stripped]

theorem stripped_blank (blank : Blank) (rest : Bytes) :
    ∃ blanks, stripped (blank.bytes ++ rest) = blanks ++ stripped rest ∧
      (∀ c ∈ blanks, isBlank c = true) ∧ (blanks = [] ↔ blank.isWhite = false) := by
  have hnewline : ∀ rest, stripped (Byte.newline :: rest) = ' ' :: stripped rest := by
    intro rest
    rw [stripped, scan_code_newline, decode_ascii (by decide), stripped]
    rfl
  have hspace : ∀ c ∈ [' '], isBlank c = true := List.forall_mem_singleton.mpr (by decide)
  cases blank with
  | space => exact ⟨[' '], stripped_plain (by decide) rest, hspace, by decide⟩
  | tab =>
      exact ⟨['\t'], stripped_plain (by decide) rest,
        List.forall_mem_singleton.mpr (by decide), by decide⟩
  | newline => exact ⟨[' '], hnewline rest, hspace, by decide⟩
  | blockComment content h =>
      have hends : (Lexeme.blockComment content h).Ends rest := trivial
      refine ⟨[], ?_, by simp, by simp [Blank.isWhite]⟩
      exact congrArg decode (Lexeme.scan_bytes_append hends)
  | lineComment marker content h =>
      have hline : Byte.newline ∉ content := fun hmem => (h _ hmem).1 rfl
      have hends : (Lexeme.lineComment marker content hline).Ends (Byte.newline :: rest) :=
        Or.inr rfl
      have hbytes : (Blank.lineComment marker content h).bytes ++ rest =
          (Lexeme.lineComment marker content hline).bytes ++ Byte.newline :: rest := by
        simp [Blank.bytes, Lexeme.bytes]
      refine ⟨[' '], ?_, hspace, by simp [Blank.isWhite]⟩
      rw [hbytes]
      exact (congrArg decode (Lexeme.scan_bytes_append hends)).trans (hnewline rest)

theorem stripped_gap (gap : Gap) (rest : Bytes) :
    ∃ blanks, stripped (gap.bytes ++ rest) = blanks ++ stripped rest ∧
      (∀ c ∈ blanks, isBlank c = true) ∧ (blanks = [] ↔ gap.any Blank.isWhite = false) := by
  induction gap with
  | nil => exact ⟨[], rfl, by simp, by simp⟩
  | cons blank gap ih =>
      obtain ⟨others, hrest, hothers, hempty⟩ := ih
      obtain ⟨first, hblank, hfirst, hwhite⟩ := stripped_blank blank (Gap.bytes gap ++ rest)
      have hbytes : Gap.bytes (blank :: gap) ++ rest = blank.bytes ++ (Gap.bytes gap ++ rest) := by
        simp [Gap.bytes]
      refine ⟨first ++ others, ?_, ?_, ?_⟩
      · rw [hbytes, hblank, hrest, List.append_assoc]
      · intro c hc
        exact (List.mem_append.mp hc).elim (hfirst c) (hothers c)
      · rw [List.append_eq_nil_iff, hwhite, hempty, List.any_cons, Bool.or_eq_false_iff]

/-- A text whose first character is visible when its comments are gone. -/
def Inky (text : Bytes) : Prop :=
  ∃ c chars, stripped text = c :: chars ∧ isBlank c = false

theorem CodeByte.inky {b : UInt8} (h : CodeByte b) (rest : Bytes) : Inky (b :: rest) :=
  ⟨_, _, stripped_plain ⟨h.1, h.2.1⟩ rest, h.2.2⟩

theorem collapseBehind_blanks {blanks rest : List Char} {c : Char}
    (hblanks : ∀ d ∈ blanks, isBlank d = true) (hc : isBlank c = false) :
    collapseBehind (blanks ++ c :: rest) =
      (if blanks = [] then [] else [' ']) ++ collapseBehind (c :: rest) := by
  have hcollapse : ∀ blanks : List Char, (∀ d ∈ blanks, isBlank d = true) →
      collapse (blanks ++ c :: rest) = collapse (c :: rest) := by
    intro blanks hblanks
    induction blanks with
    | nil => rfl
    | cons d blanks ih =>
        rw [List.cons_append, collapse_cons_blank (hblanks d List.mem_cons_self),
          ih fun b hb => hblanks b (List.mem_cons_of_mem d hb)]
  cases blanks with
  | nil => rfl
  | cons d blanks =>
      have hd := hblanks d List.mem_cons_self
      have hrest := hcollapse blanks fun b hb => hblanks b (List.mem_cons_of_mem d hb)
      have hbehind : collapse (c :: rest) = collapseBehind (c :: rest) := by
        rw [collapse_cons_inked hc, collapseBehind_cons_inked hc]
      have hne : collapse (c :: rest) ≠ [] := by
        rw [collapse_cons_inked hc]
        exact List.cons_ne_nil _ _
      rw [List.cons_append, collapseBehind, if_pos hd, hrest, if_neg hne, hbehind,
        if_neg (List.cons_ne_nil _ _)]
      rfl

theorem collapseBehind_gap (gap : Gap) {rest : Bytes} (h : Inky rest) :
    collapseBehind (stripped (gap.bytes ++ rest)) =
      asciiChars gap.tidy.bytes ++ collapseBehind (stripped rest) := by
  obtain ⟨c, chars, hrest, hc⟩ := h
  obtain ⟨blanks, hgap, hblanks, hempty⟩ := stripped_gap gap rest
  rw [hgap, hrest, collapseBehind_blanks hblanks hc]
  by_cases hwhite : gap.any Blank.isWhite = true
  · have hne : blanks ≠ [] := fun hnil => by
      rw [hempty.mp hnil] at hwhite
      cases hwhite
    rw [if_neg hne, Gap.tidy, if_pos hwhite]
    rfl
  · rw [if_pos (hempty.mpr (by simpa using hwhite)), Gap.tidy, if_neg hwhite]
    rfl

theorem asciiChars_append (front back : Bytes) :
    asciiChars (front ++ back) = asciiChars front ++ asciiChars back :=
  List.map_append

theorem asciiChars_cons (b : UInt8) (rest : Bytes) :
    asciiChars (b :: rest) = Char.ofNat b.toNat :: asciiChars rest :=
  rfl

theorem collapseBehind_byte {b : UInt8} (h : CodeByte b) (rest : Bytes) :
    collapseBehind (stripped (b :: rest)) =
      Char.ofNat b.toNat :: collapseBehind (stripped rest) := by
  rw [stripped_plain ⟨h.1, h.2.1⟩, collapseBehind_cons_inked h.2.2]

/-- No space is due in front of the first character of a text if it is visible. -/
theorem normalize_of_inky {text tidy : Bytes} (hinky : Inky text)
    (h : collapseBehind (stripped text) = asciiChars tidy) :
    Source.normalize text = String.ofList (asciiChars tidy) := by
  have hstrip : decode (strip text) = stripped text := by
    rw [strip, stripLines_stripBlocks, stripped]
  obtain ⟨c, chars, hchars, hc⟩ := hinky
  have hbehind : collapse (stripped text) = collapseBehind (stripped text) := by
    rw [hchars, collapse_cons_inked hc, collapseBehind_cons_inked hc]
  rw [Source.normalize, hstrip, hbehind, h]

theorem Gap.ascii_tidy (gap : Gap) : Ascii gap.tidy.bytes := by
  rw [Gap.tidy]
  split <;> exact forall_mem_of_all rfl

theorem encode_asciiChars {text : Bytes} (h : Ascii text) :
    encode (String.ofList (asciiChars text)) = text := by
  have hbyte : ∀ b : UInt8, b ≤ 0x7F → String.utf8EncodeChar (Char.ofNat b.toNat) = [b] :=
    Byte.forall_of_lt (by decide +kernel)
  rw [encode, String.toList_ofList, asciiChars]
  induction text with
  | nil => rfl
  | cons b text ih =>
      rw [List.map_cons, List.flatMap_cons, hbyte b (h b List.mem_cons_self),
        ih fun c hc => h c (List.mem_cons_of_mem b hc)]
      rfl

end HclToJson.Grammar
