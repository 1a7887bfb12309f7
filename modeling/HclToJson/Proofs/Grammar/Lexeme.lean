import HclToJson.Grammar.Lexeme
import HclToJson.Proofs.Decimal.Text
import HclToJson.Proofs.Grammar.Literal
import HclToJson.Proofs.Grammar.Parser

namespace HclToJson.Grammar

open HclToJson.Parser

theorem identLength_append {b : UInt8} {others rest : Bytes} (hb : Text.isIdentStart b = true)
    (hothers : ∀ c ∈ others, Text.isIdentContinue c = true)
    (hrest : ∀ c ∈ rest.head?, Text.isIdentContinue c = false) :
    Text.identLength (b :: others ++ rest) = (b :: others).length := by
  rw [List.cons_append, Text.identLength, if_pos hb, takeWhile_append_of_head hothers hrest,
    List.length_cons, Nat.add_comm]

theorem ident_eq {b : UInt8} {others rest : Bytes} (hb : Text.isIdentStart b = true)
    (hothers : ∀ c ∈ others, Text.isIdentContinue c = true)
    (hrest : ∀ c ∈ rest.head?, Text.isIdentContinue c = false) (pos : Nat) :
    ident ⟨pos, b :: others ++ rest⟩ =
      .ok (Text.ofBytes (b :: others), ⟨pos + (b :: others).length, rest⟩) := by
  have hlength := identLength_append hb hothers hrest
  have hpos : decide (0 < (b :: others).length) = true := by simp
  simp only [ident, bind_eq, ahead_eq, require_eq, take_eq, pure_eq, hlength, hpos, ↓reduceIte,
    List.take_left, List.drop_left]

/-- The digits of a whole number of at most 64 bits. -/
structure Numeral where
  first : UInt8
  others : Bytes
  first_digit : Byte.isDigit first = true
  others_digits : ∀ b ∈ others, Byte.isDigit b = true
  small : Decimal.readNat (Text.decode (first :: others)) < 0x1_0000_0000_0000_0000

def Numeral.bytes (numeral : Numeral) : Bytes := numeral.first :: numeral.others

def Numeral.value (numeral : Numeral) : Nat := Decimal.readNat (Text.decode numeral.bytes)

/-- A text that the digits of a number end in front of, which is a whole one then. -/
def EndsNumeral (text : Bytes) : Prop :=
  ∀ b ∈ text.head?, Byte.isDigit b = false ∧ b ≠ Byte.dot ∧ b ≠ 0x65 ∧ b ≠ 0x45

theorem Numeral.digits_eq (numeral : Numeral) {rest : Bytes} (h : EndsNumeral rest) (pos : Nat) :
    digits ⟨pos, numeral.bytes ++ rest⟩ =
      .ok (Text.decode numeral.bytes, ⟨pos + numeral.bytes.length, rest⟩) := by
  have hdigits : ∀ b ∈ numeral.bytes, Byte.isDigit b = true := by
    intro b hb
    rcases List.mem_cons.mp hb with rfl | hb
    · exact numeral.first_digit
    · exact numeral.others_digits b hb
  have htake := takeWhile_append_of_head hdigits fun b hb => (h b hb).1
  have hpos : decide (0 < numeral.bytes.length) = true := by simp [Numeral.bytes]
  simp only [digits, bind_eq, ahead_eq, require_eq, take_eq, pure_eq, htake, hpos, ↓reduceIte,
    List.take_left, List.drop_left]

theorem EndsNumeral.fraction {rest : Bytes} (h : EndsNumeral rest) (pos : Nat) :
    fraction ⟨pos, rest⟩ = .error .miss := by
  have hdot : (Cursor.mk pos rest).rest.head? ≠ some Byte.dot := fun hb => (h _ hb).2.1 rfl
  simp only [Grammar.fraction, bind_eq, byte_miss hdot]

theorem EndsNumeral.exponent {rest : Bytes} (h : EndsNumeral rest) (pos : Nat) :
    exponent ⟨pos, rest⟩ = .ok (none, ⟨pos, rest⟩) := by
  have hmark : ¬ (rest.head? = some 0x65 ∨ rest.head? = some 0x45) := by
    rintro (hb | hb)
    · exact (h _ hb).2.2.1 rfl
    · exact (h _ hb).2.2.2 rfl
  simp only [Grammar.exponent, bind_eq, ahead_eq, hmark, ↓reduceIte, pure_eq]

theorem Numeral.number_eq (numeral : Numeral) {rest : Bytes} (h : EndsNumeral rest) (pos : Nat) :
    number ⟨pos, numeral.bytes ++ rest⟩ =
      .ok (.ofInt numeral.value, ⟨pos + numeral.bytes.length, rest⟩) := by
  have hminus : (Cursor.mk pos (numeral.bytes ++ rest)).rest.head? ≠ some Byte.minus := by
    intro hb
    obtain heq : numeral.first = Byte.minus := Option.some.inj hb
    have hdigit := numeral.first_digit
    rw [heq] at hdigit
    exact absurd hdigit (by decide)
  have hsmall : decide (Decimal.readNat (Text.decode numeral.bytes) < 0x1_0000_0000_0000_0000) =
      true := decide_eq_true numeral.small
  simp only [number, bind_eq, flag_of_ne hminus, Bool.false_eq_true, ↓reduceIte, unsigned,
    brokenExponent, get_eq, discard_eq, numeral.digits_eq h, optional_eq, h.fraction, h.exponent,
    Option.isNone_some, set_eq, pure_eq, either_eq, float, Option.isSome_none, Bool.or_self,
    require_eq, integerNumber, integer, hsmall]
  rfl

/-- A byte of a string that stands for itself. -/
abbrev PlainByte (b : UInt8) : Prop :=
  b ≠ Byte.quote ∧ b ≠ Byte.backslash ∧ b ≠ Byte.dollar ∧ b ≠ Byte.percent

/-- The run of a string that is all plain goes up to the closing quote. -/
theorem quotedRun?_plain {content : Bytes} (h : ∀ b ∈ content, PlainByte b) (rest : Bytes)
    {started : Bool} (hstarted : started = true ∨ content ≠ []) {fuel : Bytes}
    (hfuel : content.length < fuel.length) :
    quotedRun? started fuel (content ++ Byte.quote :: rest) = some (content.length, content) := by
  have hpos : 0 < fuel.length := Nat.lt_of_le_of_lt (Nat.zero_le _) hfuel
  obtain ⟨b, fuel, rfl⟩ := List.exists_cons_of_length_pos hpos
  induction content generalizing started b fuel with
  | nil =>
      obtain rfl : started = true := by simpa using hstarted
      have hquote := doubledMarker?_of_ne (b := Byte.quote) (by decide) rest
      rw [List.nil_append, quotedRun?.eq_def]
      simp only [hquote, true_or, ↓reduceIte]
      rfl
  | cons c content ih =>
      obtain ⟨hquote, hbackslash, hmarker⟩ := h c List.mem_cons_self
      have hlength : content.length < fuel.length := Nat.lt_of_succ_lt_succ hfuel
      have hpos : 0 < fuel.length := Nat.lt_of_le_of_lt (Nat.zero_le _) hlength
      obtain ⟨d, fuel, rfl⟩ := List.exists_cons_of_length_pos hpos
      have hrun := ih (fun b hb => h b (List.mem_cons_of_mem c hb)) (Or.inl rfl) d fuel hlength
        hpos
      rw [List.cons_append, quotedRun?.eq_def]
      simp only [doubledMarker?_of_ne hmarker, opensMarker_of_ne hmarker, hquote, hbackslash,
        or_self, ↓reduceIte, Bool.false_eq_true, List.drop_one, List.tail_cons, hrun]
      simp [Nat.add_comm]

theorem plainString_eq {content : Bytes} (h : ∀ b ∈ content, PlainByte b) (rest : Bytes)
    (pos : Nat) :
    plainString ⟨pos, Byte.quote :: (content ++ Byte.quote :: rest)⟩ =
      .ok (Text.ofBytes content, ⟨pos + (content.length + 2), rest⟩) := by
  have hquoted : ∃ text, Parser.optional quotedText ⟨pos + 1, content ++ Byte.quote :: rest⟩ =
      .ok (text, ⟨pos + 1 + content.length, Byte.quote :: rest⟩) ∧
      text.getD "" = Text.ofBytes content := by
    by_cases hempty : content = []
    · subst hempty
      have hrun : quotedRun? false (Byte.quote :: rest) (Byte.quote :: rest) = none := by
        rw [quotedRun?.eq_def]
        simp only [doubledMarker?_of_ne (b := Byte.quote) (by decide) rest, true_or, ↓reduceIte]
        rfl
      refine ⟨none, ?_, rfl⟩
      simp only [optional_eq, quotedText, bind_eq, ahead_eq, List.nil_append, hrun, miss_eq]
      rfl
    · have hstarted : false = true ∨ content ≠ [] := Or.inr hempty
      have hfuel : content.length < (content ++ Byte.quote :: rest).length := by simp
      have hrun := quotedRun?_plain h rest hstarted hfuel
      refine ⟨some (Text.ofBytes content), ?_, rfl⟩
      simp only [optional_eq, quotedText, bind_eq, ahead_eq, hrun, discard_eq, take_eq,
        List.drop_left, pure_eq]
  obtain ⟨text, hquoted, htext⟩ := hquoted
  have hpos : pos + 1 + content.length + 1 = pos + (content.length + 2) := by omega
  simp only [plainString, bind_eq, byte_eq, hquoted, pure_eq, hpos, htext]

end HclToJson.Grammar
