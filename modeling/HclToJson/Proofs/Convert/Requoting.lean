import HclToJson.Exchange
import HclToJson.Proofs.Convert.Depth
import HclToJson.Proofs.Convert.SourceText
import HclToJson.Proofs.Requote.Attribute
import HclToJson.Proofs.Requote.Operation

namespace HclToJson

/-- Whether an expression has no other value than its text. -/
def Expr.keepsText : Expr → Bool
  | .var .. | .paren .. | .conditional .. | .call .. | .traversal .. | .binary ..
  | .comprehension .. => true
  | .unary _ _ operand => operand.literal?.isNone
  | _ => false

theorem Expr.keepsText_iff_form (e : Expr) :
    e.keepsText = true ↔ e.form = .quoted ∨ e.form = .paren := by
  cases e with
  | unary layout op operand =>
      cases h : operand.literal? <;> simp [keepsText, form, h]
  | _ => simp [keepsText, form]

namespace Grammar

/-- The expression that a text consists of, with the place that it has there. -/
def placed? (text : Bytes) : Option Expr :=
  Parser.whole? (expr (nestedIn text) false) text

theorem expression?_eq (text : Bytes) : expression? text = (placed? text).map (·.withoutSpan) :=
  rfl

end Grammar

/-- The text of an expression in a source has the same tokens without its comments. -/
def Expr.FitsIn (source : Bytes) (e : Expr) : Prop :=
  ∃ text ∈ e.span.bind (·.slice? source), Comment.Fit Comment.root text

instance Expr.decidableFitsIn (source : Bytes) (e : Expr) : Decidable (e.FitsIn source) :=
  inferInstanceAs
    (Decidable (∃ text ∈ e.span.bind (·.slice? source), Comment.Fit Comment.root text))

end HclToJson

namespace HclToJson.Conversion

open Comment Grammar Text

theorem expression_of_keepsText {c : Conversion} {depth : Nat} {e : Expr}
    (hdepth : depth < c.options.maxDepth) (hoff : c.options.keepInterpolation = false)
    (h : e.keepsText = true) : c.expression depth e = .ok (.string (c.sourceText e)) := by
  have hverbatim : c.verbatim e = c.sourceText e := by
    simp [verbatim, referenceText, hoff]
  cases e with
  | unary layout op operand =>
      cases hliteral : operand.literal? with
      | none =>
          simp only [expression, descend_of_lt hdepth, unaryValue, hliteral]
          rfl
      | some value => simp [Expr.keepsText, hliteral] at h
  | null | bool | number | string | array | object | template | heredoc => cases h
  | _ =>
      rw [← hverbatim]
      simp only [expression, descend_of_lt hdepth]
      rfl

theorem expression_whole {options : Options} {depth : Nat} {e : Expr} {text : String}
    (hdepth : depth < options.maxDepth) (hoff : options.keepInterpolation = false)
    (h : e.keepsText = true) (hspan : e.span = some ⟨0, (encode text).length⟩)
    (hnormal : Source.normalize (encode text) = text) :
    Conversion.expression ⟨encode text, options⟩ depth e = .ok (.string text) := by
  have hwhole : Span.slice? ⟨0, (encode text).length⟩ (encode text) = some (encode text) := by
    simp [Span.slice?]
  rw [expression_of_keepsText hdepth hoff h, sourceText_of_span hspan hwhole, hnormal]

/-- What is left of the text of a value is read as an expression of the same form. -/
theorem exists_placed? {source text : Bytes} {e : Expr} {c d : Cursor}
    (h : IsRead source e text c d) (hfit : Fit root text) (hjoin : e.joinable = true) :
    ∃ e', placed? (squeeze (uncommented root text)) = some e' ∧ e'.form = e.form ∧
      e'.span = some ⟨0, (squeeze (uncommented root text)).length⟩ := by
  let tidy := squeeze (uncommented root text)
  have hn := nestedRetraces_nestedTo h.ends (source.length + 1) (tidy.length + 2)
  have htracks : Tracks d.rest root text c ⟨0, tidy⟩ := ⟨h.rest, hfit, Or.inl rfl⟩
  have hended : Ended e (squeeze (uncommented root [])) :=
    ⟨Or.inl (by simp [uncommented, endsExpression]), fun _ => by simp [uncommented, opensStep]⟩
  obtain ⟨e', d', hrun, hbehind, -, hform⟩ :=
    hn.expr htracks (Nat.lt_add_of_pos_right (by decide)) h.run rfl hjoin fun _ => hended
  have hend : d'.rest = [] := by
    rcases hbehind.tidy with htidy | htidy <;> simpa [uncommented] using htidy
  obtain ⟨read, hread, hpos⟩ := (advances_nestedTo (tidy.length + 2)).expr false ⟨0, tidy⟩ hrun
  have hlength : d'.pos = tidy.length := by
    rw [hend, List.append_nil] at hread
    rw [hpos, ← hread, Nat.zero_add]
  refine ⟨e', ?_, hform, ?_⟩
  · have hread : expr (nestedIn tidy) false ⟨0, tidy⟩ = .ok (e', d') := hrun
    change placed? tidy = some e'
    rw [placed?, Parser.whole?, hread]
    simp [hend]
  · rw [places_expr _ false hrun, hlength]

/-- A block with one attribute, with comments in its value, and line ends where white space may
be. -/
def commentedBlock : String :=
  "b \"l\" \x7b # block\n  a = f([ # one\n    for x in xs : \"k-$\x7bx.id\x7d\" if x != 1\n" ++
    "  ],\n  \x7b n = -m, /* two */\n    p = g ? 2 : h[0] // three\n  \x7d)\n\x7d\n"

def joinedCall : String :=
  "f([ for x in xs : \"k-$\x7bx.id\x7d\" if x != 1 ], \x7b n = -m, p = g ? 2 : h[0] \x7d)"

end HclToJson.Conversion
