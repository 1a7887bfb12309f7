import HclToJson.Proofs.Comment.NormalForm

namespace HclToJson.Comment

open Text

abbrev charBytes (chars : List Char) : Bytes := chars.flatMap String.utf8EncodeChar

theorem utf8EncodeChar_cases (c : Char) :
    String.utf8EncodeChar c = [asciiByte c] ∨ ∀ b ∈ String.utf8EncodeChar c, 0x80 ≤ b := by
  have hbyte : ∀ n, 0x80 ≤ n → n < 0x100 → 0x80 ≤ UInt8.ofNat n := by
    intro n hlow hhigh
    refine UInt8.le_iff_toNat_le.mpr ?_
    rw [UInt8.toNat_ofNat', Nat.mod_eq_of_lt hhigh]
    exact hlow
  by_cases hc : c.toNat ≤ 0x7F
  · left
    rw [String.utf8EncodeChar.eq_1, Char.toNat_val, if_pos hc, asciiByte, if_pos hc]
  · right
    have hvalid : c.toNat < 0xD800 ∨ (0xDFFF < c.toNat ∧ c.toNat < 0x110000) := c.valid
    rw [String.utf8EncodeChar.eq_1, Char.toNat_val, if_neg hc]
    intro b hb
    split at hb
    · simp only [List.mem_cons, List.not_mem_nil, or_false] at hb
      rcases hb with rfl | rfl <;> exact hbyte _ (by omega) (by omega)
    · split at hb
      · simp only [List.mem_cons, List.not_mem_nil, or_false] at hb
        rcases hb with rfl | rfl | rfl <;> exact hbyte _ (by omega) (by omega)
      · simp only [List.mem_cons, List.not_mem_nil, or_false] at hb
        rcases hb with rfl | rfl | rfl | rfl <;> exact hbyte _ (by omega) (by omega)

theorem scan_code_inert {quote : Quote} (h : quote.WellMarked) {bytes : Bytes}
    (hbytes : ∀ b ∈ bytes, Inert b) (rest : Bytes) :
    ∃ next : Quote, next.WellMarked ∧ scan (Region.code quote).place (bytes ++ rest) =
      bytes ++ scan (Region.code next).place rest := by
  induction bytes generalizing quote with
  | nil => exact ⟨quote, h, rfl⟩
  | cons b bytes ih =>
      obtain ⟨hb, hbytes⟩ := List.forall_mem_cons.mp hbytes
      obtain ⟨next, hnext, hscan⟩ := ih (h.next b) hbytes
      have hslash : b ≠ Byte.slash := hb.2.2.2.2.1
      refine ⟨next, hnext, ?_⟩
      rw [List.cons_append, scan_code h, if_neg hb.2.2.1, if_neg fun hblock => hslash hblock.2.1,
        if_neg fun hline => hb.not_opens _ (Or.inl hline.2), hscan, List.cons_append]

theorem scan_lineComment_inert {bytes : Bytes} (hbytes : ∀ b ∈ bytes, Inert b) (rest : Bytes) :
    scan .lineComment (bytes ++ rest) = scan .lineComment rest := by
  induction bytes with
  | nil => rfl
  | cons b bytes ih =>
      obtain ⟨hb, hbytes⟩ := List.forall_mem_cons.mp hbytes
      rw [List.cons_append, scan, if_neg hb.2.2.1, ih hbytes]

theorem scan_blockComment_cons (b : UInt8) (rest : Bytes) :
    scan .blockComment (b :: rest) =
      if b = Byte.star ∧ rest.head? = some Byte.slash then scan .code rest.tail
      else scan .blockComment rest := by
  cases rest <;> simp [scan]

theorem scan_blockComment_inert {bytes : Bytes} (hbytes : ∀ b ∈ bytes, Inert b) (rest : Bytes) :
    scan .blockComment (bytes ++ rest) = scan .blockComment rest := by
  induction bytes with
  | nil => rfl
  | cons b bytes ih =>
      obtain ⟨hb, hbytes⟩ := List.forall_mem_cons.mp hbytes
      rw [List.cons_append, scan_blockComment_cons, if_neg fun h => hb.2.2.2.2.2 h.1, ih hbytes]

/-- What opens or closes a block comment is not a part of another character. -/
theorem tail_charBytes {chars : List Char} {b : UInt8} (hb : b ∈ [Byte.slash, Byte.star])
    (h : (charBytes chars).head? = some b) : (charBytes chars).tail = charBytes chars.tail := by
  cases chars with
  | nil => rfl
  | cons c chars =>
      rw [charBytes, List.flatMap_cons] at h ⊢
      rcases utf8EncodeChar_cases c with hc | hc
      · rw [hc]
        rfl
      · obtain ⟨d, others, hd⟩ := List.exists_cons_of_ne_nil (String.utf8EncodeChar_ne_nil (c := c))
        rw [hd, List.cons_append, List.head?_cons] at h
        have hinert : Inert d := inert_of_le (hc d (by simp [hd]))
        exact absurd (Option.some.inj h) (hinert.ne_delimiter hb)

/-- What a scan does with the first character of a text: it keeps it or drops it, writes a space for
a newline, or drops it with the second character of the marker of a block comment. -/
theorem scan_char {region : Region} (h : region.WellMarked) (c : Char) (rest : List Char) :
    ∃ (next : Region) (kept after : List Char), next.WellMarked ∧ after <:+ rest ∧
      (inked kept).Sublist [c] ∧ scan region.place (charBytes (c :: rest)) =
        charBytes kept ++ scan next.place (charBytes after) := by
  have hout : (Region.code .outside).WellMarked := trivial
  have hslash : Byte.slash ∈ [Byte.slash, Byte.star] := by decide
  have hstar : Byte.star ∈ [Byte.slash, Byte.star] := by decide
  have hkept : (inked [c]).Sublist [c] := List.filter_sublist
  have hspace : (inked [' ']).Sublist [c] := List.nil_sublist _
  have hnone : (inked []).Sublist [c] := List.nil_sublist _
  have hall := List.suffix_refl rest
  rw [charBytes, List.flatMap_cons]
  rcases utf8EncodeChar_cases c with hc | hc
  · cases region with
    | code quote =>
        rw [hc, List.singleton_append, scan_code h]
        split
        · exact ⟨.code .outside, [' '], rest, hout, hall, hspace, rfl⟩
        · split
          · rename_i hopen
            refine ⟨.block, [], rest.tail, trivial, List.tail_suffix rest, hnone, ?_⟩
            rw [tail_charBytes hstar hopen.2.2]
            rfl
          · split
            · exact ⟨.line, [], rest, trivial, hall, hnone, rfl⟩
            · refine ⟨.code (quote.next (asciiByte c)), [c], rest, h.next _, hall, hkept, ?_⟩
              rw [charBytes, List.flatMap_singleton, hc]
              rfl
    | line =>
        rw [hc, List.singleton_append, Region.place, scan]
        split
        · exact ⟨.code .outside, [' '], rest, hout, hall, hspace, rfl⟩
        · exact ⟨.line, [], rest, trivial, hall, hnone, rfl⟩
    | block =>
        rw [hc, List.singleton_append, Region.place, scan_blockComment_cons]
        split
        · rename_i hclose
          refine ⟨.code .outside, [], rest.tail, hout, List.tail_suffix rest, hnone, ?_⟩
          rw [tail_charBytes hslash hclose.2]
          rfl
        · exact ⟨.block, [], rest, trivial, hall, hnone, rfl⟩
  · have hinert : ∀ b ∈ String.utf8EncodeChar c, Inert b := fun b hb => inert_of_le (hc b hb)
    cases region with
    | code quote =>
        obtain ⟨next, hnext, hscan⟩ := scan_code_inert h hinert (charBytes rest)
        refine ⟨.code next, [c], rest, hnext, hall, hkept, ?_⟩
        rw [hscan, charBytes, charBytes, List.flatMap_singleton]
    | line => exact ⟨.line, [], rest, trivial, hall, hnone, scan_lineComment_inert hinert _⟩
    | block => exact ⟨.block, [], rest, trivial, hall, hnone, scan_blockComment_inert hinert _⟩

theorem exists_kept {region : Region} (h : region.WellMarked) (chars : List Char) :
    ∃ kept, scan region.place (charBytes chars) = charBytes kept ∧
      (inked kept).Sublist chars := by
  induction hlength : chars.length using Nat.strong_induction_on generalizing region chars with
  | h length ih =>
      cases chars with
      | nil => exact ⟨[], by simp [scan], List.Sublist.refl _⟩
      | cons c rest =>
          obtain ⟨next, first, after, hnext, hafter, hfirst, hscan⟩ := scan_char h c rest
          have hshort : after.length < length := by
            rw [← hlength]
            exact Nat.lt_succ_of_le hafter.length_le
          obtain ⟨kept, hkept, hsub⟩ := ih _ hshort hnext after rfl
          refine ⟨first ++ kept, ?_, ?_⟩
          · rw [hscan, hkept, charBytes, charBytes, charBytes, List.flatMap_append]
          · rw [inked_append]
            exact hfirst.append (hsub.trans hafter.sublist)

/-- The bytes that are left of a text are those of a text. -/
theorem exists_strip_encode (text : String) :
    ∃ kept : String, strip (encode text) = encode kept ∧
      (inked kept.toList).Sublist text.toList := by
  have hout : (Region.code .outside).WellMarked := trivial
  obtain ⟨kept, hscan, hkept⟩ := exists_kept hout text.toList
  refine ⟨String.ofList kept, ?_, by rwa [String.toList_ofList]⟩
  rw [strip, stripLines_stripBlocks, encode, encode, String.toList_ofList]
  exact hscan

theorem filter_collapse (text : List Char) :
    (collapse text).filter (· ≠ ' ') = inked text := by
  rw [← inked_collapse, inked]
  refine List.filter_congr fun c hc => ?_
  have hspace := (singleSpaced_collapse text).space c hc
  by_cases hc : c = ' '
  · subst c
    rfl
  · have hblank : isBlank c = false := by
      by_contra hblank
      exact hc (hspace (by simpa using hblank))
    simp [hc, hblank]

theorem length_charBytes (chars : List Char) :
    (charBytes chars).length = (String.ofList chars).utf8ByteSize := by
  rw [String.utf8ByteSize, String.toByteArray_ofList, List.utf8Encode, List.size_toByteArray]

theorem charBytes_split (chars : List Char) (n : Nat) :
    charBytes chars = charBytes (chars.take n) ++ charBytes (chars.drop n) := by
  rw [← List.flatMap_append, List.take_append_drop]

/-- Around a byte of ASCII a text is that of whole characters. -/
theorem charBytes_split_ascii {chars : List Char} {b : UInt8} {front back : Bytes} (hb : b < 0x80)
    (h : charBytes chars = front ++ b :: back) :
    (∃ before, front = charBytes before) ∧ ∃ after, back = charBytes after := by
  induction chars generalizing front with
  | nil => exact absurd h (by simp)
  | cons c chars ih =>
      have hcons : charBytes (c :: chars) = String.utf8EncodeChar c ++ charBytes chars := rfl
      rw [hcons] at h
      have hbehind : ∀ front', front = String.utf8EncodeChar c ++ front' →
          charBytes chars = front' ++ b :: back →
          (∃ before, front = charBytes before) ∧ ∃ after, back = charBytes after := by
        intro front' hfront hrest
        obtain ⟨⟨before, rfl⟩, hafter⟩ := ih hrest
        exact ⟨⟨c :: before, hfront⟩, hafter⟩
      rcases List.append_eq_append_iff.mp h with ⟨front', hfront, hrest⟩ | ⟨bytes, hbytes, hrest⟩
      · exact hbehind front' hfront hrest
      · cases bytes with
        | nil => exact hbehind [] (by simpa using hbytes.symm) hrest.symm
        | cons e bytes =>
            obtain ⟨rfl, rfl⟩ := List.cons.inj hrest
            rcases utf8EncodeChar_cases c with hc | hc
            · rw [hc] at hbytes
              obtain rfl : front = [] := by
                have hlength := congrArg List.length hbytes
                simp only [List.length_append, List.length_cons, List.length_nil] at hlength
                exact List.eq_nil_of_length_eq_zero (by omega)
              obtain ⟨-, rfl⟩ := List.cons.inj hbytes
              exact ⟨⟨[], rfl⟩, chars, rfl⟩
            · exact absurd hb (UInt8.not_lt.mpr (hc b (by rw [hbytes]; simp)))

/-- A range between the bounds of characters holds a text. -/
theorem exists_slice? {text : String} {span : Span}
    (hstart : String.Pos.Raw.IsValid text ⟨span.start⟩)
    (hstop : String.Pos.Raw.IsValid text ⟨span.stop⟩) (h : span.start ≤ span.stop) :
    ∃ range : String, span.slice? (encode text) = some (encode range) := by
  obtain ⟨i, hi⟩ := String.Pos.Raw.isValid_iff_exists_take_toList.mp hstart
  obtain ⟨j, hj⟩ := String.Pos.Raw.isValid_iff_exists_take_toList.mp hstop
  rw [← length_charBytes] at hi hj
  change span.start = _ at hi
  change span.stop = _ at hj
  have hsplit : encode text = charBytes (text.toList.take j) ++ charBytes (text.toList.drop j) :=
    charBytes_split text.toList j
  have hle : span.stop ≤ (encode text).length := by
    rw [hsplit, List.length_append, ← hj]
    exact Nat.le_add_right _ _
  have htake : (encode text).take span.stop = charBytes (text.toList.take j) := by
    rw [hsplit]
    exact List.take_left' hj.symm
  refine ⟨String.ofList ((text.toList.take j).drop i), ?_⟩
  rw [Span.slice?, if_pos ⟨h, hle⟩, ← List.drop_take, htake, encode, String.toList_ofList]
  rcases Nat.le_total i j with hij | hji
  · have hparts := charBytes_split (text.toList.take j) i
    rw [List.take_take, Nat.min_eq_left hij] at hparts
    rw [hparts]
    exact congrArg some (List.drop_left' hi.symm)
  · -- The range is empty: no character is shorter than a byte.
    have hparts := congrArg List.length (charBytes_split (text.toList.take i) j)
    rw [List.take_take, Nat.min_eq_left hji, List.length_append, ← hi, ← hj] at hparts
    have hchars : (text.toList.take j).drop i = [] := by
      rw [List.drop_eq_nil_iff, List.length_take]
      omega
    have hbytes : (charBytes (text.toList.take j)).drop span.start = [] := by
      rw [List.drop_eq_nil_iff, ← hj, hparts]
      exact Nat.le_add_right _ _
    rw [hchars, hbytes]
    rfl

/-- Quoting a part of a document breaks no character, if the part starts and ends between characters:
what is left without comments is a text again, and what is quoted of it are characters of the part,
in order, with spaces between. -/
theorem extract_keeps_characters {text : String} {span : Span}
    (hstart : String.Pos.Raw.IsValid text ⟨span.start⟩)
    (hstop : String.Pos.Raw.IsValid text ⟨span.stop⟩) (h : span.start ≤ span.stop) :
    ∃ range kept quoted : String,
      span.slice? (encode text) = some (encode range) ∧
      strip (encode range) = encode kept ∧
      Source.extract? (encode text) span = some quoted ∧
      quoted.toList = collapse kept.toList ∧
      (quoted.toList.filter (· ≠ ' ')).Sublist range.toList := by
  obtain ⟨range, hrange⟩ := exists_slice? hstart hstop h
  obtain ⟨kept, hstrip, hkept⟩ := exists_strip_encode range
  have hquoted : (Source.normalize (encode range)).toList = collapse kept.toList := by
    rw [Source.normalize, hstrip, decode_encode, String.toList_ofList]
  refine ⟨range, kept, Source.normalize (encode range), hrange, hstrip, ?_, hquoted, ?_⟩
  · rw [Source.extract?, hrange, Option.map_some]
  · rw [hquoted, filter_collapse]
    exact hkept

/-- Longer characters in code, strings and comments, beside markers and in a string that is open. -/
def accented : String := "a = é/*ü*/ß + \"ö /* ä\" # ñ\n'€ b"

theorem extract_keeps_characters_accented :
    String.Pos.Raw.IsValid accented ⟨4⟩ ∧ String.Pos.Raw.IsValid accented ⟨37⟩ ∧
      ∃ range kept quoted : String,
        range = "é/*ü*/ß + \"ö /* ä\" # ñ\n'€" ∧ quoted = "éß + \"ö /* ä\" '€" ∧
        (Span.mk 4 37).slice? (encode accented) = some (encode range) ∧
        strip (encode range) = encode kept ∧
        Source.extract? (encode accented) ⟨4, 37⟩ = some quoted ∧
        quoted.toList = collapse kept.toList ∧
        (quoted.toList.filter (· ≠ ' ')).Sublist range.toList := by
  have hstart : String.Pos.Raw.IsValid accented ⟨4⟩ := by decide +kernel
  have hstop : String.Pos.Raw.IsValid accented ⟨37⟩ := by decide +kernel
  obtain ⟨range, kept, quoted, hrange, hkept, hquoted, hcollapse, hsublist⟩ :=
    @extract_keeps_characters accented ⟨4, 37⟩ hstart hstop (by decide)
  have hslice : ((Span.mk 4 37).slice? (encode accented)).map ofBytes =
      some "é/*ü*/ß + \"ö /* ä\" # ñ\n'€" := by decide +kernel
  have htext : Source.extract? (encode accented) ⟨4, 37⟩ = some "éß + \"ö /* ä\" '€" := by
    decide +kernel
  have hpart : range = "é/*ü*/ß + \"ö /* ä\" # ñ\n'€" := by
    rw [hrange, Option.map_some, ofBytes_encode] at hslice
    exact Option.some.inj hslice
  have hresult : quoted = "éß + \"ö /* ä\" '€" := Option.some.inj (hquoted.symm.trans htext)
  exact ⟨hstart, hstop, range, kept, quoted, hpart, hresult, hrange, hkept, hquoted, hcollapse,
    hsublist⟩

end HclToJson.Comment
