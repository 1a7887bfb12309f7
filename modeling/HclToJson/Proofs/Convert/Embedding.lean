import HclToJson.Proofs.Convert.Levels
import HclToJson.Proofs.Convert.Marking
import HclToJson.Proofs.Syntax.Bare

namespace HclToJson

/-- An expression with `n` quoted templates around it, each of which is a single interpolation. -/
inductive Expr.WrappedIn (inner : Expr) : Nat → Expr → Prop
  | refl : WrappedIn inner 0 inner
  | quote {n : Nat} {outer : Expr} (h : WrappedIn inner n outer) (layout inside : Layout)
      (trim : Trim) : WrappedIn inner (n + 1) (.template layout [.interpolation inside trim outer])

/-- Neither a conditional nor a conditional with quotes around it. -/
def Expr.Unconditional (e : Expr) : Prop :=
  ∀ n layout condition yes no, ¬ (Expr.conditional layout condition yes no).WrappedIn n e

namespace Conversion

variable {c : Conversion} {depth n : Nat} {e outer : Expr} {s : String}

/-- Each template around an expression uses up one level, and does nothing else to its value. -/
theorem expression_wrapped (h : e.WrappedIn n outer) :
    c.expression depth outer = c.expression (depth + n) e := by
  induction h generalizing depth with
  | refl => rfl
  | @quote n outer h layout inside trim ih =>
      rw [expression, descend_bind fun below hlevel => expression_of_le outer hlevel, ih,
        Nat.add_right_comm]
      rfl

theorem template_append (front back : Template) :
    c.template depth (front ++ back) = do
      let before ← c.template depth front
      let after ← c.template depth back
      return before ++ after := by
  induction front with
  | nil => simp only [List.nil_append, template, pure_bind, String.empty_append, bind_pure]
  | cons item front ih =>
      cases item with
      | literal text =>
          simp only [List.cons_append, template, ih, bind_assoc, pure_bind, String.append_assoc]
      | interpolation layout trim e =>
          simp only [List.cons_append, template, ih, bind_assoc, pure_bind, String.append_assoc]
      | choice =>
          simp only [List.cons_append, template, ih, bind_assoc, pure_bind, String.append_assoc]
      | repetition =>
          simp only [List.cons_append, template, ih, bind_assoc, pure_bind, String.append_assoc]

theorem template_single (layout : Layout) (trim : Trim) (e : Expr) :
    c.template depth [.interpolation layout trim e] = c.stringPart depth e := by
  simp only [template, pure_bind, String.append_empty, bind_pure]

theorem stringPart_wrapped (h : e.WrappedIn n outer) :
    c.stringPart depth outer = c.stringPart (depth + n) e := by
  induction h generalizing depth with
  | refl => rfl
  | @quote n outer h layout inside trim ih =>
      simp only [stringPart, template_single]
      rw [descend_bind fun below hlevel => stringPart_of_le outer hlevel, ih, Nat.add_right_comm]
      rfl

theorem toValue_ne_string (n : Number) (s : String) : n.toValue ≠ .string s := by
  unfold Number.toValue
  cases n.toInt64? <;> nofun

/-- No operator has a string as its result. -/
theorem applyUnary_ne_string {op : UnaryOp} {operand value : Static}
    (h : Eval.applyUnary op operand = .ok value) (s : String) : value.toValue ≠ .string s := by
  unfold Eval.applyUnary at h
  split at h
  · cases h
    exact toValue_ne_string _ s
  · cases h
    nofun
  · cases h

/-- A unary operation that becomes a string is one that stands for itself. -/
theorem unaryValue_eq_string {layout : Layout} {op : UnaryOp} {operand : Expr}
    (h : c.unaryValue layout op operand = .ok (.string s)) :
    s = c.sourceText (.unary layout op operand) := by
  simp only [unaryValue] at h
  split at h
  · cases h
    rfl
  · split at h
    · rename_i hvalue
      exact absurd (Except.ok.inj h) (applyUnary_ne_string hvalue s)
    · cases h

/-- A computation that is written out as a string. -/
theorem eq_ok_of_string {x : Except ConvertError String}
    (h : (do let text ← x; return Value.string text) = .ok (.string s)) : x = .ok s := by
  obtain ⟨text, rfl, htext⟩ := bind_eq_ok_iff.mp h
  cases htext
  rfl

/-- The two conversions of an expression go through its cases alike wherever the value is a
string. -/
theorem stringPart_of_expression (depth : Nat) (e : Expr) (hplain : e.Unconditional)
    (h : c.expression depth e = .ok (.string s)) : c.stringPart depth e = .ok s := by
  refine (expression.mutual_induct
    (fun depth e => e.Unconditional → c.expression depth e = .ok (.string s) →
      c.stringPart depth e = .ok s)
    (fun _ _ => True) (fun _ _ => True) ?null ?bool ?number ?string ?unary ?wrapped ?template
    ?heredoc ?array ?object ?other ?nil ?cons ?nilItems ?consItems).1 depth e hplain h
  case null =>
    intro depth layout _ h
    rw [expression] at h
    obtain ⟨_, _, h⟩ := bind_eq_ok_iff.mp h
    cases h
  case bool =>
    intro depth layout value _ h
    rw [expression] at h
    obtain ⟨_, _, h⟩ := bind_eq_ok_iff.mp h
    cases h
  case number =>
    intro depth layout value _ h
    rw [expression] at h
    obtain ⟨_, _, h⟩ := bind_eq_ok_iff.mp h
    exact absurd (Except.ok.inj h) (toValue_ne_string value s)
  case string =>
    intro depth layout value _ h
    rw [expression] at h
    obtain ⟨_, hlevel, h⟩ := bind_eq_ok_iff.mp h
    cases h
    rw [stringPart]
    exact bind_eq_ok_iff.mpr ⟨_, hlevel, rfl⟩
  case unary =>
    intro depth layout op operand _ h
    rw [expression] at h
    obtain ⟨_, hlevel, h⟩ := bind_eq_ok_iff.mp h
    rw [stringPart, unaryValue_eq_string h]
    · exact bind_eq_ok_iff.mpr ⟨_, hlevel, rfl⟩
    all_goals simp
  case wrapped =>
    intro depth layout inside trim inner ih hplain h
    rw [expression] at h
    obtain ⟨below, hlevel, h⟩ := bind_eq_ok_iff.mp h
    have hinner := ih below (fun n layout' condition yes no hwrapped =>
      hplain (n + 1) layout' condition yes no (.quote hwrapped layout inside trim)) h
    rw [stringPart]
    exact bind_eq_ok_iff.mpr ⟨below, hlevel, (template_single inside trim inner).trans hinner⟩
  case template =>
    intro depth layout parts hwrapped _ h
    rw [expression] at h
    · obtain ⟨below, hlevel, h⟩ := bind_eq_ok_iff.mp h
      rw [stringPart]
      exact bind_eq_ok_iff.mpr ⟨below, hlevel, eq_ok_of_string h⟩
    all_goals exact hwrapped
  case heredoc =>
    intro depth layout indented parts _ h
    rw [expression] at h
    obtain ⟨below, hlevel, h⟩ := bind_eq_ok_iff.mp h
    rw [stringPart]
    exact bind_eq_ok_iff.mpr ⟨below, hlevel, eq_ok_of_string h⟩
  case array =>
    intro depth layout items _ _ h
    rw [expression] at h
    obtain ⟨_, _, h⟩ := bind_eq_ok_iff.mp h
    obtain ⟨_, _, h⟩ := bind_eq_ok_iff.mp h
    cases h
  case object =>
    intro depth layout items _ _ h
    rw [expression] at h
    obtain ⟨_, _, h⟩ := bind_eq_ok_iff.mp h
    obtain ⟨_, _, h⟩ := bind_eq_ok_iff.mp h
    cases h
  case other =>
    intro depth e hnull hbool hnumber hstring hunary hwrapped htemplate hheredoc harray hobject
      hplain h
    rw [expression] at h
    · obtain ⟨_, hlevel, h⟩ := bind_eq_ok_iff.mp h
      cases h
      rw [stringPart]
      · exact bind_eq_ok_iff.mpr ⟨_, hlevel, rfl⟩
      all_goals first
        | assumption
        | rintro layout condition yes no rfl
          exact hplain 0 layout condition yes no .refl
    all_goals assumption
  all_goals intros; trivial

/-- An expression whose value is a string has the same text as a part of a template, unless it is a
conditional or one in quotes. So it does with any number of quotes around it, as a value, as a part,
and between other parts, wherever there are as many levels left as it needs with the quotes. -/
theorem expression_embeds (hplain : e.Unconditional)
    (h : c.expression depth e = .ok (.string s)) :
    c.stringPart depth e = .ok s ∧
    ∀ (level n : Nat) (outer : Expr), e.WrappedIn n outer →
      level + n + e.levels ≤ c.options.maxDepth →
      c.expression level outer = .ok (.string s) ∧
      c.stringPart level outer = .ok s ∧
      ∀ layout trim front back,
        c.template level (front ++ .interpolation layout trim outer :: back) = do
          let before ← c.template level front
          let after ← c.template level back
          return before ++ (s ++ after) := by
  refine ⟨stringPart_of_expression depth e hplain h, fun level n outer hwrapped hlevel => ?_⟩
  have hvalue : c.expression (level + n) e = .ok (.string s) := by
    have hlimited : (c.limited c.options.maxDepth).expression depth e = .ok (.string s) := h
    have hexactly := ((Settled.law c).values.1 0 e).exactly hlimited
    have hite := hexactly.eq_ite (show level + n ≤ c.options.maxDepth by omega)
    rwa [if_pos hlevel] at hite
  have hpart : c.stringPart level outer = .ok s := by
    rw [stringPart_wrapped hwrapped, stringPart_of_expression (level + n) e hplain hvalue]
  refine ⟨(expression_wrapped hwrapped).trans hvalue, hpart, ?_⟩
  intro layout trim front back
  have htail : c.template level (.interpolation layout trim outer :: back) = do
      let after ← c.template level back
      return s ++ after := by
    rw [template, hpart]
    rfl
  simp only [template_append, htail, bind_assoc, pure_bind]

/-- `"${"${~ var.x}"}"` -/
def requoted : Expr :=
  .template .nowhere [.interpolation .nowhere ⟨false, false⟩
    (.template .nowhere [.interpolation .nowhere ⟨true, false⟩ referenced])]

/-- A reference keeps its mark: as a value, in quotes that are in quotes, and in a longer template. -/
theorem expression_embeds_referenced :
    (referringSource.marking true).expression 0 referenced = .ok (.string "$\x7bvar.x\x7d") ∧
    (referringSource.marking true).stringPart 0 referenced = .ok "$\x7bvar.x\x7d" ∧
    (referringSource.marking true).expression 5 requoted = .ok (.string "$\x7bvar.x\x7d") ∧
    (referringSource.marking true).stringPart 5 requoted = .ok "$\x7bvar.x\x7d" ∧
    (referringSource.marking true).template 5
        ([.literal "a-"] ++ .interpolation .nowhere ⟨false, false⟩ requoted :: [.literal "-b"]) =
      .ok "a-$\x7bvar.x\x7d-b" := by
  have hplain : referenced.Unconditional := by
    intro n layout condition yes no h
    unfold referenced at h
    cases h
  have hvalue : (referringSource.marking true).expression 0 referenced =
      .ok (.string "$\x7bvar.x\x7d") := rfl
  have hwrapped : referenced.WrappedIn 2 requoted := .quote (.quote .refl _ _ _) _ _ _
  obtain ⟨hpart, hwraps⟩ := expression_embeds hplain hvalue
  obtain ⟨hquoted, hquotedPart, hbetween⟩ := hwraps 5 2 requoted hwrapped (by decide)
  refine ⟨hvalue, hpart, hquoted, hquotedPart, ?_⟩
  rw [hbetween]
  rfl

end Conversion

end HclToJson
