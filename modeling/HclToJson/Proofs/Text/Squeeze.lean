import Mathlib.Data.List.Find
import HclToJson.Proofs.Bytes
import HclToJson.Proofs.Comment.Characters
import HclToJson.Proofs.Comment.Layers

namespace HclToJson.Text

open Comment

def blankChars : List Char :=
  blankRanges.flatMap fun (first, last) =>
    (List.range' first (last + 1 - first)).map Char.ofNat

theorem forall_blank {p : Char → Prop} [DecidablePred p]
    (h : blankChars.all (fun c => decide (p c)) = true) : ∀ c ∈ blankChars, p c :=
  fun c hc => of_decide_eq_true (List.all_eq_true.mp h c hc)

theorem isBlank_of_mem : ∀ c ∈ blankChars, isBlank c = true := forall_blank (by decide +kernel)

theorem mem_of_isBlank {c : Char} (h : isBlank c = true) : c ∈ blankChars := by
  simp only [isBlank, List.any_eq_true, Bool.and_eq_true, decide_eq_true_eq] at h
  obtain ⟨range, hrange, hlow, hhigh⟩ := h
  simp only [blankChars, List.mem_flatMap, List.mem_map, List.mem_range'_1]
  exact ⟨range, hrange, c.toNat, ⟨hlow, by omega⟩, Char.ofNat_toNat c⟩

/-- The length of the white space at the start of a text, if a character of it is there. -/
def whiteLength (text : Bytes) : Nat :=
  match blankChars.find? fun c => (String.utf8EncodeChar c).isPrefixOf text with
  | some c => (String.utf8EncodeChar c).length
  | none => 0

/-- A text with single spaces between its words and no other white space. -/
def squeeze : Bytes → Bytes
  | [] => []
  | b :: rest =>
      if 0 < whiteLength (b :: rest) then squeeze (rest.drop (whiteLength (b :: rest) - 1))
      else if whiteLength rest = 0 ∨ squeeze rest = [] then b :: squeeze rest
      else b :: Byte.space :: squeeze rest
  termination_by text => text.length

/-- What squeezing makes of the text behind a byte that is no white space. -/
def squeezeBehind (text : Bytes) : Bytes :=
  if whiteLength text = 0 ∨ squeeze text = [] then squeeze text else Byte.space :: squeeze text

@[simp] theorem squeeze_nil : squeeze [] = [] := by rw [squeeze]

@[simp] theorem squeezeBehind_nil : squeezeBehind [] = [] := by simp [squeezeBehind]

/-! ### White space as bytes -/

/-- A byte that white space may start with. -/
abbrev WhiteStart (b : UInt8) : Prop :=
  b ∈ [0x09, 0x0A, 0x0B, 0x0C, 0x0D, 0x20, 0xC2, 0xE1, 0xE2, 0xE3]

/-- A byte that white space of several bytes may go on with. -/
abbrev WhiteNext (b : UInt8) : Prop := b ∈ [0x80, 0x81, 0x85, 0x9A, 0xA0]

theorem exists_blank_of_whiteLength {text : Bytes} (h : 0 < whiteLength text) :
    ∃ c ∈ blankChars, String.utf8EncodeChar c <+: text := by
  rw [whiteLength] at h
  split at h
  · rename_i c hfind
    have hprefix : (String.utf8EncodeChar c).isPrefixOf text = true :=
      List.find?_some (p := fun c => (String.utf8EncodeChar c).isPrefixOf text) hfind
    exact ⟨c, List.mem_of_find?_eq_some hfind, List.isPrefixOf_iff_prefix.mp hprefix⟩
  · exact absurd h (Nat.lt_irrefl 0)

theorem blank_encoding : ∀ c ∈ blankChars, ∃ b ∈ (String.utf8EncodeChar c).head?, WhiteStart b ∧
    (b < 0x80 ∨ ∃ d ∈ (String.utf8EncodeChar c).tail.head?, WhiteNext d) :=
  forall_blank (by decide +kernel)

theorem whiteStart_of_whiteLength {b : UInt8} {rest : Bytes} (h : 0 < whiteLength (b :: rest)) :
    WhiteStart b ∧ (b < 0x80 ∨ ∃ d ∈ rest.head?, WhiteNext d) := by
  obtain ⟨c, hc, text, htext⟩ := exists_blank_of_whiteLength h
  obtain ⟨b', hb', hstart, hnext⟩ := blank_encoding c hc
  cases hencode : String.utf8EncodeChar c with
  | nil =>
      rw [hencode] at hb'
      cases hb'
  | cons d tail =>
      rw [hencode] at htext hb' hnext
      obtain rfl : d = b' := by simpa using hb'
      obtain ⟨rfl, rfl⟩ := List.cons.inj htext
      refine ⟨hstart, hnext.imp_right fun ⟨e, he, hwhite⟩ => ⟨e, ?_, hwhite⟩⟩
      rw [List.tail_cons] at he
      obtain ⟨others, rfl⟩ := List.head?_eq_some_iff.mp he
      rfl

theorem encoded_prefix {c d : Char} {rest : Bytes}
    (h : (String.utf8EncodeChar d).isPrefixOf (String.utf8EncodeChar c ++ rest) = true) :
    d = c := by
  obtain ⟨text, htext⟩ := List.isPrefixOf_iff_prefix.mp h
  have hdecode := congrArg (Reading.run .ready) htext
  rw [Reading.run_utf8EncodeChar, Reading.run_utf8EncodeChar] at hdecode
  exact (List.cons.inj hdecode).1

theorem whiteLength_char (c : Char) (rest : Bytes) :
    whiteLength (String.utf8EncodeChar c ++ rest) =
      if isBlank c then (String.utf8EncodeChar c).length else 0 := by
  rw [whiteLength]
  cases hfind : blankChars.find? fun d =>
      (String.utf8EncodeChar d).isPrefixOf (String.utf8EncodeChar c ++ rest) with
  | some d =>
      obtain rfl : d = c := encoded_prefix (List.find?_some
        (p := fun d => (String.utf8EncodeChar d).isPrefixOf
          (String.utf8EncodeChar c ++ rest)) hfind)
      rw [if_pos (isBlank_of_mem d (List.mem_of_find?_eq_some hfind))]
  | none =>
      have hc : ¬ isBlank c = true := by
        intro hc
        have hnot := List.find?_eq_none.mp hfind c (mem_of_isBlank hc)
        simp at hnot
      rw [if_neg hc]

theorem whiteLength_ascii {b : UInt8} (h : b < 0x80) (rest : Bytes) :
    whiteLength (b :: rest) = if isBlank (Char.ofNat b.toNat) then 1 else 0 := by
  have hencode : ∀ b : UInt8, b < 0x80 → String.utf8EncodeChar (Char.ofNat b.toNat) = [b] :=
    Byte.forall_of_lt (by decide +kernel)
  have hchar := whiteLength_char (Char.ofNat b.toNat) rest
  rwa [hencode b h] at hchar

/-! ### What squeezing makes of a text byte by byte -/

theorem squeeze_white {b : UInt8} {rest : Bytes} (h : 0 < whiteLength (b :: rest)) :
    squeeze (b :: rest) = squeeze (rest.drop (whiteLength (b :: rest) - 1)) := by
  rw [squeeze, if_pos h]

theorem squeeze_inked {b : UInt8} {rest : Bytes} (h : whiteLength (b :: rest) = 0) :
    squeeze (b :: rest) = b :: squeezeBehind rest := by
  rw [squeeze, if_neg (by omega), squeezeBehind]
  split <;> rfl

theorem squeezeBehind_inked {b : UInt8} {rest : Bytes} (h : whiteLength (b :: rest) = 0) :
    squeezeBehind (b :: rest) = b :: squeezeBehind rest := by
  rw [squeezeBehind, if_pos (Or.inl h), squeeze_inked h]

theorem squeezeBehind_append_inked {text : Bytes} (rest : Bytes)
    (h : ∀ b ∈ text, ∀ rest, whiteLength (b :: rest) = 0) :
    squeezeBehind (text ++ rest) = text ++ squeezeBehind rest := by
  induction text with
  | nil => rfl
  | cons b text ih =>
      rw [List.cons_append, squeezeBehind_inked (h b List.mem_cons_self _),
        ih fun c hc => h c (List.mem_cons_of_mem b hc), List.cons_append]

/-! ### Squeezing is collapsing -/

/-- The bytes of a character behind the first one start no white space. -/
theorem tail_utf8EncodeChar (c : Char) :
    ∃ b text, String.utf8EncodeChar c = b :: text ∧ ∀ d ∈ text, ¬ WhiteStart d := by
  have hlast : ∀ n, ¬ WhiteStart (UInt8.ofNat (n % 64 + 128)) := fun n =>
    (by decide : ∀ m < 64, ¬ WhiteStart (UInt8.ofNat (m + 128))) _ (Nat.mod_lt n (by decide))
  rw [String.utf8EncodeChar.eq_1]
  split
  · exact ⟨_, _, rfl, by simp⟩
  · split
    · exact ⟨_, _, rfl, List.forall_mem_singleton.mpr (hlast _)⟩
    · split
      · exact ⟨_, _, rfl, List.forall_mem_cons.mpr
          ⟨hlast _, List.forall_mem_singleton.mpr (hlast _)⟩⟩
      · exact ⟨_, _, rfl, List.forall_mem_cons.mpr ⟨hlast _, List.forall_mem_cons.mpr
          ⟨hlast _, List.forall_mem_singleton.mpr (hlast _)⟩⟩⟩

theorem squeeze_char {c : Char} (h : isBlank c = false) (rest : Bytes) :
    squeeze (String.utf8EncodeChar c ++ rest) =
      String.utf8EncodeChar c ++ squeezeBehind rest := by
  have hchar := whiteLength_char c rest
  obtain ⟨b, text, hencode, htext⟩ := tail_utf8EncodeChar c
  rw [hencode, List.cons_append] at hchar ⊢
  rw [squeeze_inked (by simpa [h] using hchar), squeezeBehind_append_inked]
  · rfl
  · intro d hd rest
    exact Nat.eq_zero_of_not_pos fun hpos => htext d hd (whiteStart_of_whiteLength hpos).1

theorem squeeze_blank {c : Char} (h : isBlank c = true) (rest : Bytes) :
    squeeze (String.utf8EncodeChar c ++ rest) = squeeze rest := by
  have hchar := whiteLength_char c rest
  obtain ⟨b, text, hencode, -⟩ := tail_utf8EncodeChar c
  rw [hencode, if_pos h] at hchar
  rw [hencode]
  rw [List.cons_append] at hchar ⊢
  rw [squeeze_white (by rw [hchar]; exact Nat.succ_pos _), hchar]
  simp

theorem charBytes_collapse (chars : List Char) :
    charBytes (collapse chars) = squeeze (charBytes chars) ∧
      charBytes (collapseBehind chars) = squeezeBehind (charBytes chars) := by
  induction chars with
  | nil => exact ⟨squeeze_nil.symm, by simp [charBytes, collapseBehind]⟩
  | cons c chars ih =>
      have hcons : charBytes (c :: chars) = String.utf8EncodeChar c ++ charBytes chars := rfl
      have hlength := whiteLength_char c (charBytes chars)
      obtain ⟨b, text, hencode, -⟩ := tail_utf8EncodeChar c
      have hempty : ∀ chars : List Char, charBytes chars = [] ↔ chars = [] := by
        intro chars
        cases chars with
        | nil => simp
        | cons d chars =>
            obtain ⟨b, text, hencode, -⟩ := tail_utf8EncodeChar d
            simp [charBytes, hencode]
      cases hc : isBlank c with
      | true =>
          have hblank := squeeze_blank hc (charBytes chars)
          have hpos : whiteLength (String.utf8EncodeChar c ++ charBytes chars) ≠ 0 := by
            rw [hlength, if_pos hc, hencode]
            exact Nat.succ_ne_zero _
          rw [hcons, collapse_cons_blank hc, hblank, collapseBehind, if_pos hc,
            squeezeBehind, hblank,
            ← ih.1]
          refine ⟨rfl, ?_⟩
          by_cases hrest : collapse chars = []
          · rw [if_pos hrest, if_pos (Or.inr ((hempty _).mpr hrest)), hrest]
          · rw [if_neg hrest, if_neg (not_or.mpr ⟨hpos, fun h => hrest ((hempty _).mp h)⟩)]
            rfl
      | false =>
          have hcollapse : charBytes (collapse (c :: chars)) =
              squeeze (charBytes (c :: chars)) := by
            rw [collapse_cons_inked hc, hcons, squeeze_char hc, ← ih.2]
            rfl
          have hnone : whiteLength (String.utf8EncodeChar c ++ charBytes chars) = 0 := by
            rw [hlength, hc]
            rfl
          refine ⟨hcollapse, ?_⟩
          rw [collapseBehind, if_neg (by simp [hc]), hcollapse, squeezeBehind, hcons,
            if_pos (Or.inl hnone)]

theorem encode_normalize (text : String) :
    encode (Source.normalize (encode text)) = squeeze (strip (encode text)) := by
  obtain ⟨kept, hstrip, -⟩ := exists_strip_encode text
  have hchars : encode (String.ofList (collapse kept.toList)) = squeeze (encode kept) := by
    rw [encode, String.toList_ofList]
    exact (charBytes_collapse kept.toList).1
  rw [Source.normalize, hstrip, decode_encode, hchars]

/-! ### Newlines and spaces are squeezed alike -/

theorem isPrefixOf_joined {front : Bytes} (h : ∀ b ∈ front, 0x80 ≤ b) (text : Bytes) :
    front.isPrefixOf (text.map joined) = front.isPrefixOf text := by
  induction front generalizing text with
  | nil => rfl
  | cons b front ih =>
      cases text with
      | nil => rfl
      | cons c text =>
          have hb := h b List.mem_cons_self
          have hsame : (b == joined c) = (b == c) := by
            rw [joined]
            split
            · rename_i hc
              subst c
              have hne : ∀ b : UInt8, 0x80 ≤ b → b ≠ Byte.space ∧ b ≠ Byte.newline :=
                Byte.forall_of_lt (by decide +kernel)
              obtain ⟨hspace, hnewline⟩ := hne b hb
              rw [beq_eq_false_iff_ne.mpr hspace, beq_eq_false_iff_ne.mpr hnewline]
            · rfl
          rw [List.map_cons, List.isPrefixOf, List.isPrefixOf, hsame,
            ih (fun d hd => h d (List.mem_cons_of_mem b hd)) text]

theorem whiteLength_joined (text : Bytes) : whiteLength (text.map joined) = whiteLength text := by
  have htail : ∀ c ∈ blankChars, ∀ b ∈ (String.utf8EncodeChar c).tail, 0x80 ≤ b :=
    forall_blank (by decide +kernel)
  cases text with
  | nil => rfl
  | cons b rest =>
      by_cases hb : b = Byte.newline
      · have hjoined : (b :: rest).map joined = Byte.space :: rest.map joined := by
          simp [joined, hb]
        rw [hjoined, hb, whiteLength_ascii (by decide), whiteLength_ascii (by decide)]
        rfl
      · have hprefix : ∀ c ∈ blankChars,
            (String.utf8EncodeChar c).isPrefixOf ((b :: rest).map joined) =
              (String.utf8EncodeChar c).isPrefixOf (b :: rest) := by
          intro c hc
          have hc := htail c hc
          cases hencode : String.utf8EncodeChar c with
          | nil => rfl
          | cons d tail =>
              rw [hencode, List.tail_cons] at hc
              rw [List.map_cons, List.isPrefixOf, List.isPrefixOf, isPrefixOf_joined hc, joined,
                if_neg hb]
        rw [whiteLength, whiteLength, List.find?_congr hprefix]

theorem squeeze_joined (text : Bytes) : squeeze (text.map joined) = squeeze text := by
  induction hlength : text.length using Nat.strong_induction_on generalizing text with
  | h length ih =>
      cases text with
      | nil => rfl
      | cons b rest =>
          have hwhite := whiteLength_joined (b :: rest)
          have hrest := ih rest.length (by simp [← hlength]) rest rfl
          by_cases hpos : 0 < whiteLength (b :: rest)
          · have hdrop := ih (rest.drop (whiteLength (b :: rest) - 1)).length
              (by simp only [← hlength, List.length_drop, List.length_cons]; omega) _ rfl
            rw [List.map_cons] at hwhite ⊢
            rw [squeeze_white (by rwa [hwhite]), squeeze_white hpos, hwhite, ← hdrop, List.map_drop]
          · have hzero : whiteLength (b :: rest) = 0 := Nat.eq_zero_of_not_pos hpos
            have hb : joined b = b := by
              refine if_neg ?_
              rintro rfl
              rw [whiteLength_ascii (by decide)] at hzero
              cases hzero
            rw [List.map_cons] at hwhite ⊢
            rw [hb] at hwhite ⊢
            rw [squeeze_inked (by rwa [hwhite]), squeeze_inked hzero, squeezeBehind, squeezeBehind,
              whiteLength_joined, hrest]

end HclToJson.Text
