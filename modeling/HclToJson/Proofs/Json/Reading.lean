import HclToJson.Json.Reader
import HclToJson.Proofs.Decimal.Text
import HclToJson.Proofs.Json.Layout
import HclToJson.Proofs.Object.Nesting
import HclToJson.Proofs.Static
import Mathlib.Data.List.DropRight

/-!
The text of a value without floats reads back as the value, in every layout of the elements; so no
two such values have one text.
-/

namespace HclToJson

mutual

/-- A value that its text determines: it has no floats, and no object in it has a key twice. -/
def Value.Exact : Value → Prop
  | .null | .boolean _ | .integer _ | .string _ => True
  | .decimal _ => False
  | .array items => itemsExact items
  | .object entries => (Entries.keys entries).Nodup ∧ entriesExact entries

def Value.itemsExact : List Value → Prop
  | [] => True
  | item :: rest => item.Exact ∧ itemsExact rest

def Value.entriesExact : List (String × Value) → Prop
  | [] => True
  | (_, value) :: rest => value.Exact ∧ entriesExact rest

end

namespace Json

section Blank

variable {gap : List Char}

theorem skipBlank_append (h : Blank gap) (rest : List Char) :
    skipBlank (gap ++ rest) = skipBlank rest :=
  List.dropWhile_append_of_pos fun c hc => by
    rcases h c hc with rfl | rfl | rfl | rfl <;> rfl

theorem skipBlank_skipBlank (rest : List Char) : skipBlank (skipBlank rest) = skipBlank rest :=
  List.dropWhile_idempotent _ rest

variable (fuel room : Nat) (text : List Char)

theorem readValue_skipBlank :
    readValue fuel room (skipBlank text) = readValue fuel room text := by
  cases fuel with
  | zero => rfl
  | succ fuel => rw [readValue, readValue, skipBlank_skipBlank]

theorem readItems_skipBlank :
    readItems fuel room (skipBlank text) = readItems fuel room text := by
  cases fuel with
  | zero => rfl
  | succ fuel => rw [readItems, readItems, readValue_skipBlank]

theorem readMembers_skipBlank :
    readMembers fuel room (skipBlank text) = readMembers fuel room text := by
  cases fuel with
  | zero => rfl
  | succ fuel => rw [readMembers, readMembers, skipBlank_skipBlank]

theorem readValue_append (h : Blank gap) :
    readValue fuel room (gap ++ text) = readValue fuel room text := by
  rw [← readValue_skipBlank, skipBlank_append h, readValue_skipBlank]

theorem readMembers_append (h : Blank gap) :
    readMembers fuel room (gap ++ text) = readMembers fuel room text := by
  rw [← readMembers_skipBlank, skipBlank_append h, readMembers_skipBlank]

end Blank

section Strings

theorem hexDigit?_digitChar : ∀ n < 16, hexDigit? n.digitChar = some n := by decide

theorem readEscape_control {c : Char} (h : c.toNat < 0x20) (rest : List Char) :
    readEscape ('u' :: '0' :: '0' :: (c.toNat / 16).digitChar :: (c.toNat % 16).digitChar :: rest) =
      some (c, rest) := by
  have hhigh := hexDigit?_digitChar (c.toNat / 16) (by omega)
  have hlow := hexDigit?_digitChar (c.toNat % 16) (by omega)
  have hzero : hexDigit? '0' = some 0 := rfl
  have hunit : ((0 * 16 + 0) * 16 + c.toNat / 16) * 16 + c.toNat % 16 = c.toNat := by omega
  have hfirst : ¬ (0xD800 ≤ c.toNat ∧ c.toNat < 0xDC00) := by omega
  have hsecond : ¬ (0xDC00 ≤ c.toNat ∧ c.toNat < 0xE000) := by omega
  simp only [readEscape, readUnicode, readHex, hzero, hhigh, hlow, bind, Option.bind, pure, hunit,
    hfirst, hsecond, ↓reduceIte, Char.ofNat_toNat]

theorem readEscape_short {c d : Char} (h : (d, c) ∈ shortEscapes) (rest : List Char) :
    readEscape (d :: rest) = some (c, rest) := by
  simp only [shortEscapes, List.mem_cons, List.not_mem_nil, or_false, Prod.mk.injEq] at h
  rcases h with ⟨rfl, rfl⟩ | ⟨rfl, rfl⟩ | ⟨rfl, rfl⟩ | ⟨rfl, rfl⟩ | ⟨rfl, rfl⟩ | ⟨rfl, rfl⟩ |
    ⟨rfl, rfl⟩
  all_goals rfl

theorem readString_escaped {c : Char} {text rest : List Char} (h : readEscape text = some (c, rest))
    (fuel : Nat) :
    readString (fuel + 1) ('\\' :: text) =
      (readString fuel rest).map fun (more, rest) => (c :: more, rest) := by
  simp only [readString, Char.reduceEq, ↓reduceIte, h, bind, Option.bind, pure]
  cases readString fuel rest <;> rfl

theorem readString_escapeLower (fuel : Nat) (c : Char) (rest : List Char) :
    readString (fuel + 1) (Text.escapeLower c ++ rest) =
      (readString fuel rest).map fun (more, rest) => (c :: more, rest) := by
  rcases escapeLower_cases c with ⟨d, hshort, hescape⟩ | ⟨hcontrol, hescape⟩ |
    ⟨hplain, hquote, hbackslash, hescape⟩
  · rw [hescape]
    exact readString_escaped (readEscape_short hshort rest) fuel
  · rw [hescape]
    exact readString_escaped (readEscape_control hcontrol rest) fuel
  · rw [hescape, List.singleton_append]
    simp only [readString, hquote, hbackslash, hplain, ↓reduceIte, bind, Option.bind, pure]
    cases readString fuel rest <;> rfl

theorem readString_chars {chars : List Char} {fuel : Nat} (h : chars.length < fuel)
    (rest : List Char) :
    readString fuel (chars.flatMap Text.escapeLower ++ '"' :: rest) = some (chars, rest) := by
  induction chars generalizing fuel with
  | nil =>
      obtain ⟨fuel, rfl⟩ := Nat.exists_eq_add_one_of_ne_zero (Nat.ne_zero_of_lt h)
      simp [readString]
  | cons c chars ih =>
      obtain ⟨fuel, rfl⟩ := Nat.exists_eq_add_one_of_ne_zero (Nat.ne_zero_of_lt h)
      rw [List.flatMap_cons, List.append_assoc, readString_escapeLower,
        ih (Nat.lt_of_succ_lt_succ h), Option.map_some]

theorem length_le_flatMap_escapeLower (chars : List Char) :
    chars.length ≤ (chars.flatMap Text.escapeLower).length := by
  induction chars with
  | nil => exact Nat.le_refl 0
  | cons c chars ih =>
      have hpos : 0 < (Text.escapeLower c).length := by
        rcases escapeLower_cases c with ⟨d, -, hescape⟩ | ⟨-, hescape⟩ | ⟨-, -, -, hescape⟩
        all_goals
          rw [hescape]
          exact Nat.succ_pos _
      rw [List.flatMap_cons, List.length_append, List.length_cons]
      omega

/-- The string behind an opening quote, read with the fuel that its text gives. -/
theorem readString_quoted (text : String) (rest : List Char) :
    let inner := text.toList.flatMap Text.escapeLower ++ '"' :: rest
    readString (inner.length + 1) inner = some (text.toList, rest) := by
  have hlength := length_le_flatMap_escapeLower text.toList
  apply readString_chars
  rw [List.length_append]
  omega

end Strings

section Numbers

/-- What may follow a number: nothing that the number could go on with. -/
def EndsNumber (rest : List Char) : Prop :=
  ∀ c ∈ rest.head?, c.isDigit = false ∧ c ≠ '.' ∧ c ≠ 'e' ∧ c ≠ 'E'

theorem EndsNumber.append {gap rest : List Char} (hgap : Blank gap) (h : EndsNumber rest) :
    EndsNumber (gap ++ rest) := by
  cases gap with
  | nil => exact h
  | cons c gap =>
      intro d hd
      obtain rfl : c = d := Option.some.inj hd
      rcases hgap c List.mem_cons_self with rfl | rfl | rfl | rfl <;> decide

theorem EndsNumber.readExponent {rest : List Char} (h : EndsNumber rest) :
    readExponent rest = some (none, rest) := by
  cases rest with
  | nil => rfl
  | cons c rest =>
      obtain ⟨-, -, hsmall, hlarge⟩ := h c rfl
      simp only [Json.readExponent, hsmall, hlarge, or_self, ↓reduceIte]

/-- The digits of a number, with or without a sign in front of them. -/
theorem readNumber_natText {rest : List Char} (h : EndsNumber rest) (n : Nat) :
    (∀ fits, readNumber (Decimal.natText n ++ rest) = some (.int n fits, rest)) ∧
    ∀ fits, readNumber ('-' :: (Decimal.natText n ++ rest)) = some (.int (-n) fits, rest) := by
  have hends : ∀ c ∈ rest.head?, c.isDigit = false := fun c hc => (h c hc).1
  have hwhole := takeWhile_append_of_head (@Decimal.isDigit_natText n) hends
  have hrest := dropWhile_append_of_head (@Decimal.isDigit_natText n) hends
  have hsign : (Decimal.natText n ++ rest).head? ≠ some '-' := by
    rw [List.head?_append_of_ne_nil _ (Decimal.natText_ne_nil n)]
    intro hhead
    have hdigit := Decimal.isDigit_natText '-' (List.mem_of_head? hhead)
    exact absurd hdigit (by decide)
  have hform : ¬ ((Decimal.natText n).isEmpty = true ∨
      (Decimal.natText n).head? = some '0' ∧ 1 < (Decimal.natText n).length) := by
    rintro (hempty | ⟨hzero, hlong⟩)
    · exact Decimal.natText_ne_nil n (List.isEmpty_iff.mp hempty)
    · rw [Decimal.length_natText hzero] at hlong
      exact absurd hlong (by decide)
  -- The match on what follows the digits takes its last case by this.
  have hpoint : ∀ others, rest ≠ '.' :: others := by
    rintro others rfl
    exact (h '.' rfl).2.1 rfl
  constructor
  · intro fits
    simp only [readNumber, hsign, ↓reduceIte, hwhole, hform, hrest, h.readExponent,
      Decimal.readNat_natText, bind, Option.bind, pure, Option.isNone_none, and_self, fits,
      ↓reduceDIte]
  · intro fits
    simp only [readNumber, List.head?_cons, List.drop_one, List.tail_cons, ↓reduceIte, hwhole,
      hform, hrest, h.readExponent, Decimal.readNat_natText, bind, Option.bind, pure,
      Option.isNone_none, and_self, fits, ↓reduceDIte]

theorem readNumber_intText {value : Int} (fits : FitsNumber value) {rest : List Char}
    (h : EndsNumber rest) :
    readNumber (Decimal.intText value ++ rest) = some (.int value fits, rest) := by
  cases value with
  | ofNat n => exact (readNumber_natText h n).1 fits
  | negSucc n => exact (readNumber_natText h (n + 1)).2 fits

end Numbers

section Values

theorem head_intText (value : Int) :
    ∃ c others, Decimal.intText value = c :: others ∧ (c = '-' ∨ c.isDigit = true) := by
  cases value with
  | ofNat n =>
      obtain ⟨c, others, hdigits⟩ := List.exists_cons_of_ne_nil (Decimal.natText_ne_nil n)
      have hdigit : c.isDigit = true := by
        apply Decimal.isDigit_natText
        rw [hdigits]
        exact List.mem_cons_self
      exact ⟨c, others, hdigits, .inr hdigit⟩
  | negSucc n => exact ⟨'-', _, rfl, .inl rfl⟩

theorem readValue_intText {value : Int} (fits : FitsNumber value) {rest : List Char}
    (h : EndsNumber rest) (fuel room : Nat) :
    readValue (fuel + 1) room (Decimal.intText value ++ rest) =
      some (.number (.int value fits), rest) := by
  have hnumber := readNumber_intText fits h
  obtain ⟨c, others, htext, hc⟩ := head_intText value
  have hne : ∀ d, d ≠ '-' → d.isDigit = false → c ≠ d := by
    rintro d hminus hdigit rfl
    rcases hc with rfl | hc
    · exact hminus rfl
    · exact absurd hc (by rw [hdigit]; decide)
  have hskip : skipBlank (c :: (others ++ rest)) = c :: (others ++ rest) := by
    have h1 := hne ' ' (by decide) rfl
    have h2 := hne '\n' (by decide) rfl
    have h3 := hne '\r' (by decide) rfl
    have h4 := hne '\t' (by decide) rfl
    simp [skipBlank, h1, h2, h3, h4]
  rw [htext, List.cons_append] at hnumber ⊢
  rw [readValue, hskip]
  split
  all_goals rename_i heq
  · exact absurd (List.cons.inj heq).1 (hne 'n' (by decide) rfl)
  · exact absurd (List.cons.inj heq).1 (hne 't' (by decide) rfl)
  · exact absurd (List.cons.inj heq).1 (hne 'f' (by decide) rfl)
  · exact absurd (List.cons.inj heq).1 (hne '"' (by decide) rfl)
  · exact absurd (List.cons.inj heq).1 (hne '[' (by decide) rfl)
  · exact absurd (List.cons.inj heq).1 (hne '\x7b' (by decide) rfl)
  · simp only [hnumber, bind, Option.bind, pure]

/-- What a reader gives that has to refuse what is nested too deep. -/
def allowed {α : Type} (nesting room : Nat) (read : α) : Option α :=
  if nesting < room then some read else none

section Containers

variable {fuel room next depth others : Nat} {inner close more rest : List Char}

theorem readItems_last {item : Static}
    (hitem : readValue fuel room inner = allowed depth room (item, close ++ ']' :: rest))
    (hclose : Blank close) :
    readItems (fuel + 1) room inner = allowed depth room ([item], rest) := by
  have hskip : skipBlank (close ++ ']' :: rest) = ']' :: rest := skipBlank_append hclose _
  rw [readItems, hitem]
  by_cases hdepth : depth < room
  · simp only [allowed, hdepth, ↓reduceIte, bind, Option.bind, hskip, pure]
  · simp only [allowed, hdepth, ↓reduceIte, bind, Option.bind]

theorem readItems_comma {item : Static} {items : List Static}
    (hitem : readValue fuel room inner = allowed depth room (item, ',' :: more))
    (hmore : readItems fuel room more = allowed others room (items, rest)) :
    readItems (fuel + 1) room inner = allowed (max depth others) room (item :: items, rest) := by
  have hskip : skipBlank (',' :: more) = ',' :: more := rfl
  rw [readItems, hitem]
  by_cases hdepth : depth < room
  · by_cases hothers : others < room
    · simp only [allowed, hdepth, hothers, Nat.max_lt, and_self, ↓reduceIte, bind, Option.bind,
        hskip, hmore, pure]
    · simp only [allowed, hdepth, hothers, Nat.max_lt, and_false, ↓reduceIte, bind, Option.bind,
        hskip, hmore]
  · simp only [allowed, hdepth, Nat.max_lt, false_and, ↓reduceIte, bind, Option.bind]

theorem readValue_array {items : List Static}
    (hopen : ∀ others, skipBlank inner ≠ ']' :: others) (hroom : 1 < room → next = room - 1)
    (h : readItems fuel next inner = allowed depth next (items, rest)) :
    readValue (fuel + 1) room ('[' :: inner) = allowed (depth + 1) room (.array items, rest) := by
  have hskip : skipBlank ('[' :: inner) = '[' :: inner := rfl
  by_cases hshort : room ≤ 1
  · simp only [readValue, hskip, hshort, ↓reduceIte, allowed]
    rw [if_neg (by omega)]
  · obtain rfl := hroom (Nat.not_le.mp hshort)
    have hdepth : depth + 1 < room ↔ depth < room - 1 := by omega
    simp only [readValue, hskip, hshort, ↓reduceIte, readItems_skipBlank, h, allowed, hdepth]
    split <;> rfl

theorem readMembers_last {key : String} {value : Static}
    (hvalue : readValue fuel room inner = allowed depth room (value, close ++ '\x7d' :: rest))
    (hclose : Blank close) :
    readMembers (fuel + 1) room (quoted key ++ ':' :: inner) =
      allowed depth room ([(key, value)], rest) := by
  have hquote (others : List Char) : skipBlank ('"' :: others) = '"' :: others := rfl
  have hcolon : skipBlank (':' :: inner) = ':' :: inner := rfl
  have hskip : skipBlank (close ++ '\x7d' :: rest) = '\x7d' :: rest := skipBlank_append hclose _
  simp only [quoted_append, readMembers, hquote, readString_quoted, hcolon, hvalue, bind,
    Option.bind, pure, String.ofList_toList]
  by_cases hdepth : depth < room
  · simp only [allowed, hdepth, ↓reduceIte, hskip]
  · simp only [allowed, hdepth, ↓reduceIte]

theorem readMembers_comma {key : String} {value : Static} {members : List (String × Static)}
    (hvalue : readValue fuel room inner = allowed depth room (value, ',' :: more))
    (hmore : readMembers fuel room more = allowed others room (members, rest)) :
    readMembers (fuel + 1) room (quoted key ++ ':' :: inner) =
      allowed (max depth others) room ((key, value) :: members, rest) := by
  have hquote (others : List Char) : skipBlank ('"' :: others) = '"' :: others := rfl
  have hcolon : skipBlank (':' :: inner) = ':' :: inner := rfl
  have hskip : skipBlank (',' :: more) = ',' :: more := rfl
  simp only [quoted_append, readMembers, hquote, readString_quoted, hcolon, hvalue, bind,
    Option.bind, pure, String.ofList_toList]
  by_cases hdepth : depth < room
  · by_cases hothers : others < room
    · simp only [allowed, hdepth, hothers, Nat.max_lt, and_self, ↓reduceIte, hskip, hmore]
    · simp only [allowed, hdepth, hothers, Nat.max_lt, and_false, ↓reduceIte, hskip, hmore]
  · simp only [allowed, hdepth, Nat.max_lt, false_and, ↓reduceIte]

theorem readValue_object {members : List (String × Static)}
    (hopen : ∀ others, skipBlank inner ≠ '\x7d' :: others) (hroom : 1 < room → next = room - 1)
    (h : readMembers fuel next inner = allowed depth next (members, rest)) :
    readValue (fuel + 1) room ('\x7b' :: inner) =
      allowed (depth + 1) room (.object (Entries.ofList members), rest) := by
  have hskip : skipBlank ('\x7b' :: inner) = '\x7b' :: inner := rfl
  by_cases hshort : room ≤ 1
  · simp only [readValue, hskip, hshort, ↓reduceIte, allowed]
    rw [if_neg (by omega)]
  · obtain rfl := hroom (Nat.not_le.mp hshort)
    have hdepth : depth + 1 < room ↔ depth < room - 1 := by omega
    simp only [readValue, hskip, hshort, ↓reduceIte, readMembers_skipBlank, h, allowed, hdepth]
    split <;> rfl

end Containers

section Texts

variable {style : Style} {gap : List Char}

theorem readValue_quoted (text : String) (fuel room : Nat) (rest : List Char) :
    readValue (fuel + 1) room (quoted text ++ rest) = some (.string text, rest) := by
  have hquote (others : List Char) : skipBlank ('"' :: others) = '"' :: others := rfl
  simp only [quoted_append, readValue, hquote, readString_quoted, bind, Option.bind, pure,
    String.ofList_toList]

/-- A character that values start with: neither white space nor the end of a list. -/
def StartsValue (c : Char) : Prop :=
  c ≠ ' ' ∧ c ≠ '\n' ∧ c ≠ '\r' ∧ c ≠ '\t' ∧ c ≠ ']'

theorem exists_head_bracket (style : Style) (level : Nat) (opening closing : Char) (elements : List (List Char)) :
    ∃ others, bracket style level opening closing elements = opening :: others := by
  rw [bracket]
  split <;> exact ⟨_, rfl⟩

theorem exists_head_text (style : Style) {value : Value} (h : value.Exact) (level : Nat) :
    ∃ c others, text style level value = c :: others ∧ StartsValue c := by
  cases value with
  | null => exact ⟨'n', _, rfl, by simp [StartsValue]⟩
  | boolean b =>
      cases b with
      | false => exact ⟨'f', _, rfl, by simp [StartsValue]⟩
      | true => exact ⟨'t', _, rfl, by simp [StartsValue]⟩
  | integer n =>
      obtain ⟨c, others, htext, hc⟩ := head_intText n.toInt
      refine ⟨c, others, htext, ?_⟩
      refine ⟨?_, ?_, ?_, ?_, ?_⟩ <;> rintro rfl <;> exact absurd hc (by decide)
  | decimal x => exact h.elim
  | string s => exact ⟨'"', _, rfl, by simp [StartsValue]⟩
  | array items =>
      obtain ⟨others, htext⟩ := exists_head_bracket style level '[' ']'
        (itemTexts style (level + 1) items)
      exact ⟨'[', others, htext, by simp [StartsValue]⟩
  | object entries =>
      obtain ⟨others, htext⟩ := exists_head_bracket style level '\x7b' '\x7d'
        (entryTexts style (level + 1) entries)
      exact ⟨'\x7b', others, htext, by simp [StartsValue]⟩

theorem text_ne_nil {value : Value} (h : value.Exact) (level : Nat) :
    text style level value ≠ [] := by
  obtain ⟨c, others, htext, -⟩ := exists_head_text style h level
  rw [htext]
  exact List.cons_ne_nil c others

theorem StartsValue.skipBlank {c : Char} (h : StartsValue c) (rest : List Char) :
    Json.skipBlank (c :: rest) = c :: rest := by
  obtain ⟨hspace, hnewline, hreturn, htab, -⟩ := h
  simp [Json.skipBlank, hspace, hnewline, hreturn, htab]

theorem opens_itemTexts (hgap : Blank gap) {item : Value} (h : item.Exact) (items : List Value)
    (level : Nat) (rest others : List Char) :
    skipBlank (separated gap (itemTexts style level (item :: items)) ++ rest) ≠ ']' :: others := by
  obtain ⟨c, more, htext, hc⟩ := exists_head_text style h level
  obtain ⟨back, hback⟩ :=
    exists_separated_cons gap (text style level item) (itemTexts style level items)
  rw [itemTexts, hback, htext, List.append_assoc, skipBlank_append hgap, List.cons_append,
    List.cons_append, hc.skipBlank]
  exact fun heq => hc.2.2.2.2 (List.cons.inj heq).1

theorem opens_entryTexts (hgap : Blank gap) (entry : String × Value)
    (entries : List (String × Value)) (level : Nat) (rest others : List Char) :
    skipBlank (separated gap (entryTexts style level (entry :: entries)) ++ rest) ≠
      '\x7d' :: others := by
  obtain ⟨key, value⟩ := entry
  obtain ⟨back, hback⟩ := exists_separated_cons gap
    (quoted key ++ ':' :: style.gap ++ text style level value) (entryTexts style level entries)
  have hquote : StartsValue '"' := by simp [StartsValue]
  have hne : '"' ≠ '\x7d' := by decide
  rw [entryTexts, hback, List.append_assoc, skipBlank_append hgap]
  simp only [quoted_append, List.append_assoc, List.cons_append, hquote.skipBlank]
  exact fun heq => hne (List.cons.inj heq).1

theorem endsNumber_closing {c : Char} (hc : c = ']' ∨ c = '\x7d' ∨ c = ',') (rest : List Char) :
    EndsNumber (c :: rest) := by
  intro d hd
  obtain rfl : c = d := Option.some.inj hd
  rcases hc with rfl | rfl | rfl <;> decide

mutual

theorem readValue_text (hstyle : style.Blank) : (value : Value) → value.Exact →
    (level fuel room : Nat) → 0 < room → (rest : List Char) →
    (text style level value).length ≤ fuel + 1 → EndsNumber rest →
    ∃ read, readValue (fuel + 1) room (text style level value ++ rest) =
        allowed value.nesting room (read, rest) ∧
      read.toValue = value
  | .null, _, _, _, _, hroom, _, _, _ => ⟨.null, (if_pos hroom).symm, rfl⟩
  | .boolean true, _, _, _, _, hroom, _, _, _ => ⟨.bool true, (if_pos hroom).symm, rfl⟩
  | .boolean false, _, _, _, _, hroom, _, _, _ => ⟨.bool false, (if_pos hroom).symm, rfl⟩
  | .integer n, _, _, fuel, room, hroom, _, _, hrest => by
      have hlow := Int64.le_toInt n
      have hhigh := Int64.toInt_lt n
      have fits : FitsNumber n.toInt := ⟨by omega, by omega⟩
      exact ⟨.number (.int n.toInt fits),
        (readValue_intText fits hrest fuel room).trans (if_pos hroom).symm,
        Static.toValue_int n fits⟩
  | .decimal _, hexact, _, _, _, _, _, _, _ => hexact.elim
  | .string s, _, _, fuel, room, hroom, rest, _, _ =>
      ⟨.string s, (readValue_quoted s fuel room rest).trans (if_pos hroom).symm, rfl⟩
  | .array [], _, _, _, room, _, rest, _, _ => by
      refine ⟨.array [], ?_, rfl⟩
      change (if room ≤ 1 then none else some (Static.array [], rest)) = allowed 1 room _
      simp only [allowed, ← Nat.not_lt, ite_not]
  | .array (item :: items), hexact, level, fuel, room, _, rest, hfuel, _ => by
      have hne : item :: items ≠ [] := List.cons_ne_nil item items
      rw [text, bracket_eq _ _ _ (itemTexts_ne_nil hne _)] at hfuel ⊢
      simp only [List.length_cons, List.length_append, List.length_nil, List.cons_append,
        List.append_assoc, List.nil_append] at hfuel ⊢
      obtain ⟨fuel, rfl⟩ : ∃ k, fuel = k + 1 := ⟨fuel - 1, by omega⟩
      obtain ⟨read, hread, hitems⟩ := readItems_texts hstyle (hstyle.newline (level + 1))
        (hstyle.newline level) (item :: items) hexact hne (level + 1) fuel (max 1 (room - 1))
        (by omega) rest (by omega)
      exact ⟨.array read,
        readValue_array (opens_itemTexts (hstyle.newline _) hexact.1 _ _ _) (by omega) hread, by
        rw [Static.toValue, hitems]⟩
  | .object [], _, _, _, room, _, rest, _, _ => by
      refine ⟨.object [], ?_, rfl⟩
      change (if room ≤ 1 then none else some (Static.object [], rest)) = allowed 1 room _
      simp only [allowed, ← Nat.not_lt, ite_not]
  | .object (entry :: entries), hexact, level, fuel, room, _, rest, hfuel, _ => by
      obtain ⟨hnodup, hentries⟩ := hexact
      have hne : entry :: entries ≠ [] := List.cons_ne_nil entry entries
      rw [text, bracket_eq _ _ _ (entryTexts_ne_nil hne _)] at hfuel ⊢
      simp only [List.length_cons, List.length_append, List.length_nil, List.cons_append,
        List.append_assoc, List.nil_append] at hfuel ⊢
      obtain ⟨fuel, rfl⟩ : ∃ k, fuel = k + 1 := ⟨fuel - 1, by omega⟩
      obtain ⟨read, hread, hmembers⟩ := readMembers_texts hstyle (hstyle.newline (level + 1))
        (hstyle.newline level) (entry :: entries) hentries hne (level + 1) fuel
        (max 1 (room - 1)) (by omega) rest (by omega)
      have hkeys : (read.map (·.1)).Nodup := by
        rw [← hmembers, Static.keys_entriesToValues] at hnodup
        exact hnodup
      rw [← Entries.ofList_eq_self hkeys] at hmembers
      exact ⟨.object (Entries.ofList read),
        readValue_object (opens_entryTexts (hstyle.newline _) _ _ _ _) (by omega) hread, by
        rw [Static.toValue, hmembers]⟩

theorem readItems_texts (hstyle : style.Blank) {gap close : List Char} (hgap : Blank gap)
    (hclose : Blank close) : (items : List Value) → Value.itemsExact items → items ≠ [] →
    (level fuel room : Nat) → 0 < room → (rest : List Char) →
    (separated gap (itemTexts style level items)).length ≤ fuel →
    ∃ read, readItems (fuel + 1) room
        (separated gap (itemTexts style level items) ++ (close ++ ']' :: rest)) =
          allowed (itemsNesting items) room (read, rest) ∧
      Static.itemsToValues read = items
  | [], _, hne, _, _, _, _, _, _ => absurd rfl hne
  | [item], hexact, _, level, fuel, room, hroom, rest, hfuel => by
      have hpos : 0 < (text style level item).length :=
        List.length_pos_of_ne_nil (text_ne_nil hexact.1 level)
      rw [itemTexts, itemTexts, separated_singleton] at hfuel ⊢
      rw [List.length_append] at hfuel
      obtain ⟨fuel, rfl⟩ : ∃ k, fuel = k + 1 := ⟨fuel - 1, by omega⟩
      obtain ⟨read, hread, hitem⟩ := readValue_text hstyle item hexact.1 level fuel room hroom
        (close ++ ']' :: rest) (by omega) (.append hclose (endsNumber_closing (.inl rfl) rest))
      rw [← readValue_append _ _ _ hgap, ← List.append_assoc] at hread
      rw [itemsNesting, itemsNesting, Nat.max_zero]
      exact ⟨[read], readItems_last hread hclose, by rw [Static.itemsToValues, hitem]; rfl⟩
  | item :: next :: items, hexact, _, level, fuel, room, hroom, rest, hfuel => by
      have hne : next :: items ≠ [] := List.cons_ne_nil next items
      rw [itemTexts, separated_cons _ (itemTexts_ne_nil hne level)] at hfuel ⊢
      simp only [List.length_append, List.length_cons, List.append_assoc, List.cons_append]
        at hfuel ⊢
      obtain ⟨fuel, rfl⟩ : ∃ k, fuel = k + 1 := ⟨fuel - 1, by omega⟩
      obtain ⟨others, hothers, hitems⟩ := readItems_texts hstyle hgap hclose (next :: items)
        hexact.2 hne level fuel room hroom rest (by omega)
      obtain ⟨read, hread, hitem⟩ := readValue_text hstyle item hexact.1 level fuel room hroom _
        (by omega) (endsNumber_closing (.inr (.inr rfl)) _)
      rw [← readValue_append _ _ _ hgap] at hread
      exact ⟨read :: others, readItems_comma hread hothers, by
        rw [Static.itemsToValues, hitem, hitems]⟩

theorem readMembers_texts (hstyle : style.Blank) {gap close : List Char} (hgap : Blank gap)
    (hclose : Blank close) : (entries : List (String × Value)) → Value.entriesExact entries →
    entries ≠ [] → (level fuel room : Nat) → 0 < room → (rest : List Char) →
    (separated gap (entryTexts style level entries)).length ≤ fuel →
    ∃ read, readMembers (fuel + 1) room
        (separated gap (entryTexts style level entries) ++ (close ++ '\x7d' :: rest)) =
          allowed (entriesNesting entries) room (read, rest) ∧
      Static.entriesToValues read = entries
  | [], _, hne, _, _, _, _, _, _ => absurd rfl hne
  | [(key, value)], hexact, _, level, fuel, room, hroom, rest, hfuel => by
      rw [entryTexts, entryTexts, separated_singleton] at hfuel ⊢
      simp only [List.length_append, List.length_cons, List.append_assoc, List.cons_append]
        at hfuel ⊢
      obtain ⟨fuel, rfl⟩ : ∃ k, fuel = k + 1 := ⟨fuel - 1, by omega⟩
      obtain ⟨read, hread, hvalue⟩ := readValue_text hstyle value hexact.1 level fuel room hroom
        (close ++ '\x7d' :: rest) (by omega)
        (.append hclose (endsNumber_closing (.inr (.inl rfl)) rest))
      rw [← readValue_append _ _ _ hstyle.gap] at hread
      rw [readMembers_append _ _ _ hgap, entriesNesting, entriesNesting, Nat.max_zero]
      exact ⟨[(key, read)], readMembers_last hread hclose, by
        rw [Static.entriesToValues, hvalue]; rfl⟩
  | (key, value) :: next :: entries, hexact, _, level, fuel, room, hroom, rest, hfuel => by
      have hne : next :: entries ≠ [] := List.cons_ne_nil next entries
      rw [entryTexts, separated_cons _ (entryTexts_ne_nil hne level)] at hfuel ⊢
      simp only [List.length_append, List.length_cons, List.append_assoc, List.cons_append]
        at hfuel ⊢
      obtain ⟨fuel, rfl⟩ : ∃ k, fuel = k + 1 := ⟨fuel - 1, by omega⟩
      obtain ⟨others, hothers, hmembers⟩ := readMembers_texts hstyle hgap hclose (next :: entries)
        hexact.2 hne level fuel room hroom rest (by omega)
      obtain ⟨read, hread, hvalue⟩ := readValue_text hstyle value hexact.1 level fuel room hroom _
        (by omega) (endsNumber_closing (.inr (.inr rfl)) _)
      rw [← readValue_append _ _ _ hstyle.gap] at hread
      rw [readMembers_append _ _ _ hgap]
      exact ⟨(key, read) :: others, readMembers_comma hread hothers, by
        rw [Static.entriesToValues, hvalue, hmembers]⟩

end

/-- In every layout a value is read back from its text if it is nested less deep than the reader
allows, and refused otherwise. -/
theorem readWithin?_text (hstyle : style.Blank) {value : Value} (h : value.Exact) (level : Nat)
    {room : Nat} (hroom : 0 < room) :
    (readWithin? room (String.ofList (text style level value))).map Static.toValue =
      allowed value.nesting room value := by
  obtain ⟨read, hread, hvalue⟩ :=
    readValue_text hstyle value h level _ room hroom [] (Nat.le_succ _) nofun
  rw [List.append_nil] at hread
  rw [readWithin?, String.toList_ofList, hread, allowed, allowed]
  by_cases hnesting : value.nesting < room
  · rw [if_pos hnesting, if_pos hnesting]
    exact congrArg some hvalue
  · rw [if_neg hnesting, if_neg hnesting]
    rfl

end Texts

/-- Quotes, a backslash, a control character and brackets in strings, and the least integer. -/
def tangled : Value :=
  .object [("\"\\\n\x01\x7f", .array [.integer Int64.minValue, .null, .object [], .boolean true]),
    ("é,😀", .string "]\x7d: \"")]

def tangledSwapped : Value :=
  .object [("é,😀", .string "]\x7d: \""),
    ("\"\\\n\x01\x7f", .array [.integer Int64.minValue, .null, .object [], .boolean true])]

/-- An empty array within `n` others. -/
def nestedArrays : Nat → Value
  | 0 => .array []
  | n + 1 => .array [nestedArrays n]

theorem exact_nestedArrays (n : Nat) : (nestedArrays n).Exact := by
  induction n with
  | zero => trivial
  | succ n ih => exact ⟨ih, trivial⟩

theorem nesting_nestedArrays (n : Nat) : (nestedArrays n).nesting = n + 1 := by
  induction n with
  | zero => rfl
  | succ n ih =>
      rw [nestedArrays, Value.nesting_array, itemsNesting, itemsNesting, ih, Nat.max_zero]

theorem text_nestedArrays (n level : Nat) :
    text .compact level (nestedArrays n) =
      List.replicate (n + 1) '[' ++ List.replicate (n + 1) ']' := by
  induction n generalizing level with
  | zero => rfl
  | succ n ih =>
      have hopen : List.replicate (n + 2) '[' = '[' :: List.replicate (n + 1) '[' := rfl
      have hclose : List.replicate (n + 2) ']' = List.replicate (n + 1) ']' ++ [']'] :=
        List.replicate_succ'
      rw [nestedArrays, text, itemTexts, itemTexts, ih, bracket_eq _ _ _ (List.cons_ne_nil _ _),
        separated_singleton, hopen, hclose]
      simp only [Style.compact, List.nil_append, List.cons_append, List.append_assoc]

end Values

end Json

end HclToJson
