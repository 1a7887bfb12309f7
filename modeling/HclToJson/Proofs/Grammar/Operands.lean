import HclToJson.Proofs.Bytes
import HclToJson.Proofs.Grammar.Behind
import HclToJson.Proofs.Grammar.Lexeme

namespace HclToJson.Grammar

open HclToJson.Parser

/-- A text that starts with no sign and no digit. -/
def Unsigned (text : Bytes) : Prop :=
  ∀ b ∈ text.head?, b ≠ Byte.minus ∧ b ≠ Byte.exclamation ∧ Byte.isDigit b = false

theorem Unsigned.digits {text : Bytes} (h : Unsigned text) (pos : Nat) :
    digits ⟨pos, text⟩ = .error .miss := by
  have hnone : text.takeWhile Byte.isDigit = [] := by
    cases text with
    | nil => rfl
    | cons b rest => simp [(h b rfl).2.2]
  simp only [Grammar.digits, bind_eq, ahead_eq, require_eq, hnone]
  rfl

theorem Unsigned.number {text : Bytes} (h : Unsigned text) (pos : Nat) :
    number ⟨pos, text⟩ = .error .miss := by
  have hminus : (Cursor.mk pos text).rest.head? ≠ some Byte.minus := fun hb => (h _ hb).1 rfl
  simp only [Grammar.number, bind_eq, flag_of_ne hminus, Bool.false_eq_true, ↓reduceIte, unsigned,
    brokenExponent, get_eq, discard_eq, h.digits]

theorem Unsigned.unaryOp {text : Bytes} (h : Unsigned text) (pos : Nat) :
    unaryOp ⟨pos, text⟩ = .error .miss := by
  have hminus : (Cursor.mk pos text).rest.head? ≠ some Byte.minus := fun hb => (h _ hb).1 rfl
  have hnot : (Cursor.mk pos text).rest.head? ≠ some Byte.exclamation := fun hb => (h _ hb).2.1 rfl
  simp only [Grammar.unaryOp, bind_eq, get_eq, optional_eq, h.number, require_eq,
    Option.isNone_none, ↓reduceIte, set_eq, either_eq, byte_miss hminus, byte_miss hnot]

theorem Numeral.unaryOp (numeral : Numeral) {rest : Bytes} (h : EndsNumeral rest) (pos : Nat) :
    unaryOp ⟨pos, numeral.bytes ++ rest⟩ = .error .miss := by
  simp only [Grammar.unaryOp, bind_eq, get_eq, optional_eq, numeral.number_eq h, require_eq,
    Option.isNone_some, Bool.false_eq_true, ↓reduceIte]

/-- An operand with nothing but blanks up to what closes it is an expression. -/
theorem expr_of_primary {nested : Nested} {text : Bytes} {e : Expr} {gap : Gap} {rest : Bytes}
    {pos : Nat} (hunary : unaryOp ⟨pos, text ++ (gap.bytes ++ rest)⟩ = .error .miss)
    (hrest : Closes rest)
    (hprimary : primary nested ⟨pos, text ++ (gap.bytes ++ rest)⟩ =
      .ok (e, ⟨pos + text.length, gap.bytes ++ rest⟩)) (newlines : Bool) :
    expr nested newlines ⟨pos, text ++ (gap.bytes ++ rest)⟩ =
      .ok (e, ⟨pos + text.length, gap.bytes ++ rest⟩) := by
  have hmany := many_of_miss hunary
  simp only [expr, bind_eq, get_eq, located_eq, term, hmany, hprimary, List.getLast?_nil, pure_eq,
    traversal_gap _ _ _ _ gap hrest, operation_gap _ _ _ _ gap hrest]

/-! ### Names, numbers and strings -/

/-- An identifier of ASCII characters, other than the word that opens a comprehension. -/
structure Name where
  first : UInt8
  others : Bytes
  first_start : Text.isIdentStart first = true ∧ first ≤ 0x7F
  others_continue : ∀ b ∈ others, Text.isIdentContinue b = true ∧ b ≤ 0x7F
  ne_for : first :: others ≠ Text.encode "for"

def Name.bytes (name : Name) : Bytes := name.first :: name.others

/-- A printable byte of a string that stands for itself. -/
abbrev Printable (b : UInt8) : Prop := PlainByte b ∧ 0x20 ≤ b ∧ b ≤ 0x7E

def quoted (content : Bytes) : Bytes := Byte.quote :: (content ++ [Byte.quote])

/-- A byte that a name, a number or a string starts with. -/
abbrev OperandStart (b : UInt8) : Prop :=
  (Text.isIdentStart b = true ∧ b ≤ 0x7F) ∨ Byte.isDigit b = true ∨ b = Byte.quote

theorem OperandStart.apart {b : UInt8} (h : OperandStart b) :
    b ∉ [Byte.space, Byte.tab, Byte.newline, Byte.carriageReturn, Byte.slash, Byte.hash,
      Byte.minus, Byte.exclamation, Byte.comma, Byte.dot, Byte.equals, Byte.closeParen,
      Byte.closeBracket, Byte.closeBrace] :=
  Byte.forall_of_lt (p := fun b => OperandStart b →
    b ∉ [Byte.space, Byte.tab, Byte.newline, Byte.carriageReturn, Byte.slash, Byte.hash,
      Byte.minus, Byte.exclamation, Byte.comma, Byte.dot, Byte.equals, Byte.closeParen,
      Byte.closeBracket, Byte.closeBrace])
    (by decide +kernel) b h

theorem OperandStart.solid {b : UInt8} (hb : OperandStart b) (rest : Bytes) :
    Solid (b :: rest) := by
  intro c hc
  obtain rfl : b = c := by simpa using hc
  have hapart := hb.apart
  simp only [List.mem_cons, List.not_mem_nil, or_false, not_or] at hapart ⊢
  tauto

theorem Name.solid (name : Name) (rest : Bytes) : Solid (name.bytes ++ rest) :=
  OperandStart.solid (Or.inl name.first_start) _

theorem Numeral.solid (numeral : Numeral) (rest : Bytes) : Solid (numeral.bytes ++ rest) :=
  OperandStart.solid (Or.inr (Or.inl numeral.first_digit)) _

theorem Closes.endsNumeral {text : Bytes} (h : Closes text) (gap : Gap) :
    EndsNumeral (gap.bytes ++ text) :=
  gap.forall_head (forall_mem_of_all rfl) (h.forall_head (forall_mem_of_all rfl))

theorem unsigned_cons {b : UInt8} (hb : OperandStart b) (hdigit : Byte.isDigit b = false)
    (rest : Bytes) : Unsigned (b :: rest) := by
  intro c hc
  obtain rfl : b = c := by simpa using hc
  have hapart := hb.apart
  simp only [List.mem_cons, List.not_mem_nil, or_false, not_or] at hapart
  tauto

theorem Name.unsigned (name : Name) (rest : Bytes) : Unsigned (name.bytes ++ rest) := by
  have hdigit : ∀ b, Text.isIdentStart b = true ∧ b ≤ 0x7F → Byte.isDigit b = false :=
    Byte.forall_of_lt (by decide +kernel)
  exact unsigned_cons (Or.inl name.first_start) (hdigit _ name.first_start) _

theorem nextToken_gap {gap : Gap} {rest : Bytes} (h : Solid rest) (pos : Nat) :
    nextToken ⟨pos, gap.bytes ++ rest⟩ = .ok (rest.head?, ⟨pos, gap.bytes ++ rest⟩) := by
  simp only [nextToken, bind_eq, get_eq, blankLines_gap h, ahead_eq, set_eq, pure_eq]

theorem within_between {front back : Parser Unit} {p : Parser Expr} {e : Expr}
    {cursor inner outer behind : Cursor} (hfront : front cursor = .ok (⟨⟩, inner))
    (hp : p inner = .ok (e, outer)) (hback : back outer = .ok (⟨⟩, behind)) :
    ∃ before after span,
      within front back p cursor = .ok (⟨e.between before after, span⟩, behind) := by
  simp only [within, located_eq, bind_eq, spelling_eq, hfront, hp, hback, pure_eq]
  exact ⟨_, _, _, rfl⟩

theorem Gap.not_continue (gap : Gap) {rest : Bytes}
    (hrest : ∀ b ∈ rest.head?, Text.isIdentContinue b = false) :
    ∀ b ∈ (gap.bytes ++ rest).head?, Text.isIdentContinue b = false :=
  gap.forall_head (forall_mem_of_all rfl) hrest

theorem Closes.not_continue {text : Bytes} (h : Closes text) :
    ∀ b ∈ text.head?, Text.isIdentContinue b = false :=
  h.forall_head (forall_mem_of_all rfl)

theorem Name.ident_eq (name : Name) {rest : Bytes}
    (h : ∀ b ∈ rest.head?, Text.isIdentContinue b = false) (pos : Nat) :
    ident ⟨pos, name.bytes ++ rest⟩ =
      .ok (Text.ofBytes name.bytes, ⟨pos + name.bytes.length, rest⟩) :=
  Grammar.ident_eq name.first_start.1 (fun b hb => (name.others_continue b hb).1) h pos

theorem layoutFrom_eq (start : Cursor) (children : List Span) (cursor : Cursor) :
    layoutFrom start children cursor =
      .ok ({ span := some ⟨start.pos, cursor.pos⟩
             gaps := gaps start.rest start.pos cursor.pos children }, cursor) :=
  rfl

theorem string_eq (nested : Nested) {content : Bytes} (h : ∀ b ∈ content, PlainByte b)
    (rest : Bytes) (pos : Nat) :
    ∃ layout, string nested ⟨pos, quoted content ++ rest⟩ =
        .ok (.string layout (Text.ofBytes content), ⟨pos + (quoted content).length, rest⟩) ∧
      layout.span = some ⟨pos, pos + (quoted content).length⟩ := by
  have hbytes : quoted content ++ rest = Byte.quote :: (content ++ Byte.quote :: rest) := by
    simp [quoted]
  have hlength : (quoted content).length = content.length + 2 := by simp [quoted]
  have hstring := plainString_eq h rest pos
  rw [hbytes, hlength]
  simp only [string, bind_eq, get_eq, optional_eq, hstring, layoutFrom_eq, pure_eq]
  exact ⟨_, rfl, rfl⟩

theorem primary_named (nested : Nested) (name : Name) (rest : Bytes) (pos : Nat) :
    primary nested ⟨pos, name.bytes ++ rest⟩ = named nested ⟨pos, name.bytes ++ rest⟩ := by
  have hopening : Byte.isDigit name.first = false ∧ name.first ∉ [Byte.quote, Byte.openBracket,
      Byte.openBrace, Byte.openParen, Byte.less, Byte.minus] :=
    Byte.forall_of_lt (p := fun b => Text.isIdentStart b = true ∧ b ≤ 0x7F →
      Byte.isDigit b = false ∧
      b ∉ [Byte.quote, Byte.openBracket, Byte.openBrace, Byte.openParen, Byte.less, Byte.minus])
      (by decide +kernel) name.first name.first_start
  have hlength : 0 < Text.identLength (name.bytes ++ rest) := by
    rw [Name.bytes, List.cons_append, Text.identLength, if_pos name.first_start.1]
    omega
  have hhead : (name.bytes ++ rest).head? = some name.first := rfl
  simp only [List.mem_cons, List.not_mem_nil, or_false, not_or] at hopening
  simp only [primary, bind_eq, ahead_eq, hhead, hopening, Bool.false_eq_true, or_self, ↓reduceIte,
    hlength]

theorem primary_numeral (nested : Nested) (numeral : Numeral) {rest : Bytes}
    (h : EndsNumeral rest) (pos : Nat) :
    ∃ layout, primary nested ⟨pos, numeral.bytes ++ rest⟩ =
        .ok (.number layout (.ofInt numeral.value), ⟨pos + numeral.bytes.length, rest⟩) ∧
      layout.span = some ⟨pos, pos + numeral.bytes.length⟩ := by
  have hopening : ∀ b, Byte.isDigit b = true → b ∉ [Byte.quote, Byte.openBracket, Byte.openBrace,
      Byte.openParen, Byte.less] := Byte.forall_of_lt (by decide +kernel)
  have hfirst := hopening _ numeral.first_digit
  simp only [List.mem_cons, List.not_mem_nil, or_false, not_or] at hfirst
  have hhead : (numeral.bytes ++ rest).head? = some numeral.first := rfl
  simp only [primary, bind_eq, ahead_eq, hhead, hfirst, ↓reduceIte, numeral.first_digit, or_true,
    numberLiteral, get_eq, numeral.number_eq h, layoutFrom_eq, pure_eq]
  exact ⟨_, rfl, rfl⟩

end HclToJson.Grammar
