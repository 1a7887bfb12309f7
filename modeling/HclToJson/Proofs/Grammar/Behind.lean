import HclToJson.Grammar.Expression
import HclToJson.Proofs.Bytes
import HclToJson.Proofs.Grammar.Blank

namespace HclToJson.Grammar

open HclToJson.Parser

/-! ### The end of an expression -/

/-- The bytes that an expression goes on with, behind an operand. -/
def goingOn : List UInt8 :=
  [Byte.question, Byte.equals, Byte.exclamation, Byte.less, Byte.greater, 0x26, 0x7C, Byte.plus,
    Byte.minus, Byte.star, Byte.slash, Byte.percent, Byte.dot, Byte.openBracket]

/-- In front of a text an expression has come to its end. -/
def Finishes (text : Bytes) : Prop :=
  endsExpression text = true ∨ (text.head? ≠ some Byte.question ∧
    binaryOps.find? (·.1.isPrefixOf text) = none ∧ opensStep text = false)

/-- No operator stands at the start of a text. -/
structure NoOperator (text : Bytes) : Prop where
  step : opensStep text = false
  other : endsExpression text = true ∨
    (text.head? ≠ some Byte.question ∧ binaryOps.find? (·.1.isPrefixOf text) = none)

theorem NoOperator.finishes {text : Bytes} (h : NoOperator text) : Finishes text :=
  h.other.imp_right fun hother => ⟨hother.1, hother.2, h.step⟩

theorem opensStep_eq_false {text : Bytes}
    (h : ∀ b ∈ text.head?, b ≠ Byte.dot ∧ b ≠ Byte.openBracket) : opensStep text = false := by
  unfold opensStep
  split
  · rename_i b _ _
    obtain ⟨hdot, hbracket⟩ := h b rfl
    simp [hdot, hbracket]
  · rfl

theorem find?_binaryOps {text : Bytes} (h : ∀ b ∈ text.head?, b ∉ goingOn) :
    binaryOps.find? (·.1.isPrefixOf text) = none := by
  have hfirst : ∀ pair ∈ binaryOps, ∃ b ∈ pair.1.head?, b ∈ goingOn := forall_mem_of_all rfl
  refine List.find?_eq_none.mpr fun pair hpair hprefix => ?_
  obtain ⟨b, hhead, hb⟩ := hfirst pair hpair
  obtain ⟨rest, hspelling⟩ := List.head?_eq_some_iff.mp hhead
  rw [hspelling] at hprefix
  obtain ⟨others, rfl⟩ := List.isPrefixOf_iff_prefix.mp hprefix
  exact h b rfl hb

theorem noOperator_of_head? {text : Bytes} (h : ∀ b ∈ text.head?, b ∉ goingOn) :
    NoOperator text where
  step := opensStep_eq_false fun b hb =>
    ⟨fun heq => h b hb (by rw [heq]; decide), fun heq => h b hb (by rw [heq]; decide)⟩
  other := Or.inr ⟨fun hhead => h _ hhead (by decide), find?_binaryOps h⟩

theorem noOperator_cons {b : UInt8} (h : b ∉ goingOn) (rest : Bytes) : NoOperator (b :: rest) :=
  noOperator_of_head? fun c hc => by
    obtain rfl : b = c := by simpa using hc
    exact h

/-- Of the operators only one starts with an equals sign, and it has two of them. -/
theorem noOperator_equals {rest : Bytes} (h : rest.head? ≠ some Byte.equals) :
    NoOperator (Byte.equals :: rest) where
  step := opensStep_eq_false (by simp; decide)
  other := by
    refine Or.inr ⟨by simp; decide, List.find?_eq_none.mpr fun pair hpair hprefix => ?_⟩
    have hfirst : ∀ pair ∈ binaryOps, pair.1 ≠ [] ∧
        (pair.1.head? = some Byte.equals → pair.1 = [Byte.equals, Byte.equals]) := by
      decide
    obtain ⟨hne, hequals⟩ := hfirst pair hpair
    obtain ⟨b, others, hspelling⟩ := List.exists_cons_of_ne_nil hne
    rw [hspelling] at hprefix hequals
    obtain ⟨hb, hothers⟩ : b = Byte.equals ∧ others.isPrefixOf rest = true := by
      simpa [List.isPrefixOf] using hprefix
    obtain ⟨-, rfl⟩ := List.cons.inj (hequals (congrArg some hb))
    obtain ⟨text, rfl⟩ := List.isPrefixOf_iff_prefix.mp hothers
    exact h rfl

section

variable {nested : Nested} {newlines : Bool} {c c₁ : Cursor}

theorem binaryOp_miss (h : binaryOps.find? (·.1.isPrefixOf c.rest) = none) :
    binaryOp c = .error .miss := by
  rw [binaryOp, bind_ok_eq (ahead_eq c), h]
  rfl

theorem operation_left (start : Cursor) (left : Expr)
    (hseparator : separator newlines c = .ok (⟨⟩, c₁)) (hcloses : Finishes c₁.rest) :
    operation nested newlines start left c = .ok (left, c) := by
  obtain ⟨between, hbetween⟩ := spelling_ok hseparator
  rw [operation, bind_ok_eq (get_eq c)]
  simp only
  rw [bind_ok_eq hbetween, bind_ok_eq (ahead_eq c₁), bind_ok_eq (get_eq c₁)]
  by_cases hends : endsExpression c₁.rest = true
  · rw [if_pos hends]
    rfl
  · obtain ⟨hquestion, hfind, -⟩ := hcloses.resolve_left hends
    rw [if_neg hends, if_neg hquestion, bind_ok_eq (optional_miss (binaryOp_miss hfind))]
    rfl

theorem traversal_base (start : Cursor) (base : Located Expr)
    (hseparator : separator newlines c = .ok (⟨⟩, c₁))
    (hnone : endsExpression c₁.rest = true ∨ opensStep c₁.rest = false) :
    traversal nested newlines start base c = .ok (base.value, c) := by
  obtain ⟨between, hbetween⟩ := spelling_ok hseparator
  rw [traversal, bind_ok_eq (get_eq c), bind_ok_eq hbetween, bind_ok_eq (ahead_eq c₁), if_neg]
  · rfl
  · rintro ⟨hopens, hnot⟩
    rcases hnone with hends | hfalse
    · simp [hends] at hnot
    · simp [hfalse] at hopens

end

/-! ### Signs behind an expression -/

/-- Nothing, or a sign that an expression ends in front of. -/
structure Closes (text : Bytes) : Prop where
  head : ∀ b ∈ text.head?, b ∈ [Byte.comma, Byte.closeParen, Byte.closeBracket, Byte.closeBrace,
    Byte.colon, Byte.equals]
  single : ¬ [Byte.equals, Byte.equals] <+: text

theorem Closes.forall_head {p : UInt8 → Prop} {text : Bytes} (h : Closes text)
    (hsign : ∀ b ∈ [Byte.comma, Byte.closeParen, Byte.closeBracket, Byte.closeBrace, Byte.colon,
      Byte.equals], p b) : ∀ b ∈ text.head?, p b := fun b hb =>
  hsign b (h.head b hb)

theorem Closes.solid {text : Bytes} (h : Closes text) : Solid text :=
  h.forall_head (by decide +kernel)

theorem closes_cons {b : UInt8}
    (h : b ∈ [Byte.comma, Byte.closeParen, Byte.closeBracket, Byte.closeBrace, Byte.colon])
    (rest : Bytes) : Closes (b :: rest) where
  head c hc := by
    obtain rfl : b = c := by simpa using hc
    exact List.mem_append_left [Byte.equals] h
  single := by
    rintro ⟨others, heq⟩
    obtain rfl := (List.cons.inj heq).1
    exact absurd h (by decide)

theorem closes_comma (rest : Bytes) : Closes (Byte.comma :: rest) :=
  closes_cons List.mem_cons_self rest

theorem closes_brace (rest : Bytes) : Closes (Byte.closeBrace :: rest) :=
  closes_cons (by simp) rest

theorem Closes.noOperator {text : Bytes} (h : Closes text) : NoOperator text := by
  cases text with
  | nil => exact ⟨rfl, Or.inl rfl⟩
  | cons b rest =>
      by_cases hb : b = Byte.equals
      · subst hb
        refine noOperator_equals fun hrest => h.single ?_
        obtain ⟨others, rfl⟩ := List.head?_eq_some_iff.mp hrest
        exact List.prefix_append [Byte.equals, Byte.equals] others
      · have hsign : ∀ b ∈ [Byte.comma, Byte.closeParen, Byte.closeBracket, Byte.closeBrace,
            Byte.colon, Byte.equals], b ≠ Byte.equals → b ∉ goingOn := forall_mem_of_all rfl
        exact noOperator_cons (hsign b (h.head b rfl) hb) rest

theorem noOperator_gap {gap : Gap} {rest : Bytes} (hrest : Closes rest)
    (hgap : ∀ blank ∈ gap.head?, blank.isInline = false) : NoOperator (gap.bytes ++ rest) := by
  cases gap with
  | nil => exact hrest.noOperator
  | cons blank gap =>
      have hblank := hgap blank rfl
      cases blank with
      | newline => exact noOperator_cons (by decide) _
      | lineComment marker content hcontent =>
          cases marker with
          | hash => exact noOperator_cons (by decide) _
          | slashes => exact ⟨rfl, Or.inl rfl⟩
      | _ => simp [Blank.isInline] at hblank

/-- Wherever the blanks behind an expression are left, no operator stands there. -/
theorem separator_noOperator (newlines : Bool) (gap : Gap) {rest : Bytes} (hrest : Closes rest)
    (pos : Nat) :
    ∃ pos' text, separator newlines ⟨pos, gap.bytes ++ rest⟩ = .ok (⟨⟩, ⟨pos', text⟩) ∧
      NoOperator text := by
  obtain ⟨front, back, -, hseparator, hstop⟩ := exists_separator_gap newlines gap hrest.solid pos
  refine ⟨_, _, hseparator, noOperator_gap hrest fun blank hblank => ?_⟩
  have hpasses := hstop blank hblank
  rw [Blank.passes, Bool.or_eq_false_iff] at hpasses
  exact hpasses.2

section

variable (nested : Nested) (newlines : Bool) (start : Cursor)

theorem operation_gap (left : Expr) (gap : Gap) {rest : Bytes} (hrest : Closes rest) (pos : Nat) :
    operation nested newlines start left ⟨pos, gap.bytes ++ rest⟩ =
      .ok (left, ⟨pos, gap.bytes ++ rest⟩) := by
  obtain ⟨pos', text, hseparator, hnone⟩ := separator_noOperator newlines gap hrest pos
  exact operation_left start left hseparator hnone.finishes

theorem traversal_gap (base : Located Expr) (gap : Gap) {rest : Bytes} (hrest : Closes rest)
    (pos : Nat) :
    traversal nested newlines start base ⟨pos, gap.bytes ++ rest⟩ =
      .ok (base.value, ⟨pos, gap.bytes ++ rest⟩) := by
  obtain ⟨pos', text, hseparator, hnone⟩ := separator_noOperator newlines gap hrest pos
  exact traversal_base start base hseparator (Or.inr hnone.step)

end

end HclToJson.Grammar
