import HclToJson.Convert.Basic
import HclToJson.Grammar.Expression
import HclToJson.Proofs.Comment.Layers

namespace HclToJson.Conversion

open Comment Text

theorem sourceText_of_span {c : Conversion} {e : Expr} {span : Span} {text : Bytes}
    (hspan : e.span = some span) (hslice : span.slice? c.source = some text) :
    c.sourceText e = Source.normalize text := by
  simp only [sourceText, hspan, Source.extract?, Option.bind_some, hslice, Option.map_some]

/-- Nothing but the comments of the grammar is taken out of an expression, as long as the quotes in
it mean to the removal of comments what they mean to the grammar. -/
theorem inked_sourceText {c : Conversion} {e : Expr} {span : Span} {text : Bytes}
    (hspan : e.span = some span) (hslice : span.slice? c.source = some text)
    (hagree : AgreesFrom root text) :
    inked (c.sourceText e).toList = inked (decode (uncommented root text)) := by
  have hjoined : List.Forall₂ Rejoined (uncommented root text)
      ((uncommented root text).map joined) := by
    refine List.forall₂_map_right_iff.mpr (List.forall₂_same.mpr fun b _ => ?_)
    by_cases hb : b = Byte.newline
    · exact Or.inr ⟨hb, if_pos hb⟩
    · exact Or.inl (if_neg hb).symm
  rw [sourceText_of_span hspan hslice, inked_normalize, strip_eq_uncommented hagree,
    inked_decode hjoined]

/-- Three strings, one within the other, with markers in the outer and the inner one and a comment
in the hole between them, and a second line. -/
def layeredCall : Bytes :=
  encode "f(\"a # $\x7bg(\"b$\x7b h(\"/*\") /* it's */ \x7d\") \x7d//\", #\"'\nx)"

theorem inked_sourceText_layered :
    ∃ e, Grammar.expression? layeredCall = some e ∧ e.span = some ⟨0, 51⟩ ∧
      AgreesFrom root layeredCall ∧
      uncommented root layeredCall =
        encode "f(\"a # $\x7bg(\"b$\x7b h(\"/*\")  \x7d\") \x7d//\", \nx)" ∧
      Conversion.sourceText ⟨layeredCall, {}⟩ e =
        "f(\"a # $\x7bg(\"b$\x7b h(\"/*\") \x7d\") \x7d//\", x)" ∧
      inked (Conversion.sourceText ⟨layeredCall, {}⟩ e).toList =
        inked (decode (uncommented root layeredCall)) := by
  have hparsed : (Grammar.expression? layeredCall).map (fun e =>
      (e.span, Conversion.sourceText ⟨layeredCall, {}⟩ e)) =
      some (some ⟨0, 51⟩, "f(\"a # $\x7bg(\"b$\x7b h(\"/*\") \x7d\") \x7d//\", x)") := by
    decide +kernel
  have hslice : (Span.mk 0 51).slice? layeredCall = some layeredCall := by decide +kernel
  have hagree : AgreesFrom root layeredCall := by decide +kernel
  obtain ⟨e, he, hpair⟩ := Option.map_eq_some_iff.mp hparsed
  obtain ⟨hspan, htext⟩ := Prod.mk.inj hpair
  exact ⟨e, he, hspan, hagree, by decide +kernel, htext, inked_sourceText hspan hslice hagree⟩

/-- A string within a hole is read as code: the marker in it is taken for a comment. -/
theorem marker_in_hole_cut :
    (Grammar.expression? (encode "f(\"$\x7b\"#\"\x7d\")")).map (fun e =>
      (e.span, Conversion.sourceText ⟨encode "f(\"$\x7b\"#\"\x7d\")", {}⟩ e)) =
      some (some ⟨0, 11⟩, "f(\"$\x7b\"") := by
  decide +kernel

example : ¬ AgreesFrom root (encode "f(\"$\x7b\"#\"\x7d\")") := by decide +kernel

end HclToJson.Conversion
