import HclToJson.Proofs.Convert.Embedding

namespace HclToJson

mutual

/-- What stands around a place in a template. The place is between the parts of the template or of
one that is nested in it; an expression that is quoted as it stands in the source has no places. -/
inductive Template.Context
  | between (front back : Template)
  | inside (front : Template) (part : Element.Context) (back : Template)

/-- What stands around a place in a part of a template. -/
inductive Element.Context
  | interpolation (layout : Layout) (trim : Trim) (e : Expr.Context)
  | yes (layout : Layout) (ifTrim elseTrim endTrim : Trim) (condition : Expr)
      (yes : Template.Context) (no : Option Template)
  | no (layout : Layout) (ifTrim elseTrim endTrim : Trim) (condition : Expr) (yes : Template)
      (no : Template.Context)
  | body (layout : Layout) (forTrim endTrim : Trim) (loop : Loop) (collection : Expr)
      (body : Template.Context)

/-- What stands around a place in an expression that is a part of a template. -/
inductive Expr.Context
  | template (layout : Layout) (parts : Template.Context)
  | heredoc (layout : Layout) (indented : Bool) (parts : Template.Context)
  | yes (layout : Layout) (condition : Expr) (yes : Expr.Context) (no : Expr)
  | no (layout : Layout) (condition yes : Expr) (no : Expr.Context)

end

mutual

/-- The template with some parts at the place. -/
def Template.Context.fill (parts : Template) : Template.Context → Template
  | .between front back => front ++ parts ++ back
  | .inside front part back => front ++ part.fill parts :: back
  termination_by structural context => context

def Element.Context.fill (parts : Template) : Element.Context → Element
  | .interpolation layout trim e => .interpolation layout trim (e.fill parts)
  | .yes layout ifTrim elseTrim endTrim condition yes no =>
      .choice layout ifTrim elseTrim endTrim condition (yes.fill parts) no
  | .no layout ifTrim elseTrim endTrim condition yes no =>
      .choice layout ifTrim elseTrim endTrim condition yes (some (no.fill parts))
  | .body layout forTrim endTrim loop collection body =>
      .repetition layout forTrim endTrim loop collection (body.fill parts)
  termination_by structural context => context

def Expr.Context.fill (parts : Template) : Expr.Context → Expr
  | .template layout inner => .template layout (inner.fill parts)
  | .heredoc layout indented inner => .heredoc layout indented (inner.fill parts)
  | .yes layout condition yes no => .conditional layout condition (yes.fill parts) no
  | .no layout condition yes no => .conditional layout condition yes (no.fill parts)
  termination_by structural context => context

end

/-- The parts of a template, be it quoted or a heredoc. -/
def Expr.templateParts? : Expr → Option Template
  | .template _ parts | .heredoc _ _ parts => some parts
  | _ => none

namespace Conversion

variable {c : Conversion} {depth : Nat} {text : String}

/-- A conversion of something that parts are put into, which depends on the parts only through their
text at some level. -/
def ThroughText (c : Conversion) (whole : Template → Except ConvertError String) : Prop :=
  ∃ (level : Nat) (before : Except ConvertError (String → Except ConvertError String)),
    ∀ parts, whole parts = do
      let after ← before
      let text ← c.template level parts
      after text

namespace ThroughText

theorem template (c : Conversion) (depth : Nat) : ThroughText c (c.template depth) := by
  refine ⟨depth, .ok .ok, fun parts => ?_⟩
  exact (bind_pure (c.template depth parts)).symm

/-- What is done before the parts are converted, and what is done with their text. -/
theorem within {α : Type} {whole : Template → Except ConvertError String}
    (h : ThroughText c whole) (x : Except ConvertError α)
    (f : α → String → Except ConvertError String) :
    ThroughText c fun parts => x >>= fun a => whole parts >>= f a := by
  obtain ⟨level, before, h⟩ := h
  refine ⟨level, x >>= fun a => before >>= fun after => pure fun text => after text >>= f a, ?_⟩
  intro parts
  simp only [h, bind_assoc, pure_bind]

theorem followed {whole : Template → Except ConvertError String} (h : ThroughText c whole)
    (f : String → Except ConvertError String) : ThroughText c fun parts => whole parts >>= f :=
  h.within (.ok ()) fun _ => f

theorem below {whole : Nat → Template → Except ConvertError String}
    (h : ThroughText c (whole (depth + 1))) :
    ThroughText c fun parts => c.descend depth >>= fun level => whole level parts := by
  have hbelow := h.within (c.descend depth) fun _ => Except.ok
  refine cast (congrArg (ThroughText c) (funext fun parts => ?_)) hbelow
  cases hlevel : c.descend depth with
  | error e => rfl
  | ok level =>
      rw [descend_eq_ok hlevel]
      exact bind_pure (whole (depth + 1) parts)

end ThroughText

mutual

theorem throughText_template (c : Conversion) (depth : Nat) : (context : Template.Context) →
    ThroughText c fun parts => c.template depth (context.fill parts)
  | .between front back => by
      have h := (ThroughText.template c depth).within (c.template depth front) fun before text =>
        c.template depth back >>= fun after => pure (before ++ text ++ after)
      simpa only [Template.Context.fill, template_append, bind_assoc, pure_bind] using h
  | .inside front part back => by
      have h := (throughText_element c depth part).within (c.template depth front)
        fun before text => c.template depth back >>= fun after => pure (before ++ (text ++ after))
      have hsplit : ∀ parts, front ++ part.fill parts :: back =
          front ++ ([part.fill parts] ++ back) := fun _ => rfl
      simpa only [Template.Context.fill, hsplit, template_append, bind_assoc, pure_bind] using h

theorem throughText_element (c : Conversion) (depth : Nat) : (context : Element.Context) →
    ThroughText c fun parts => c.template depth [context.fill parts]
  | .interpolation layout trim e => by
      simpa only [Element.Context.fill, template_single] using throughText_stringPart c depth e
  | .yes layout ifTrim elseTrim endTrim condition yes no => by
      have h := (throughText_template c (depth + 1) yes).followed fun yes =>
        c.optionalTemplate (depth + 1) no >>= fun no =>
          pure (choiceText (c.sourceText condition) yes no)
      simpa only [Element.Context.fill, template, bind_assoc, pure_bind, String.append_empty] using
        h.below
  | .no layout ifTrim elseTrim endTrim condition yes no => by
      have h := (throughText_template c (depth + 1) no).within (c.template (depth + 1) yes)
        fun yes no => pure (choiceText (c.sourceText condition) yes no)
      simpa only [Element.Context.fill, template, optionalTemplate, bind_assoc, pure_bind,
        String.append_empty] using h.below
  | .body layout forTrim endTrim loop collection body => by
      have h := (throughText_template c (depth + 1) body).followed fun body =>
        pure (repetitionText loop (c.sourceText collection) body)
      simpa only [Element.Context.fill, template, bind_assoc, pure_bind, String.append_empty] using
        h.below

theorem throughText_stringPart (c : Conversion) (depth : Nat) : (context : Expr.Context) →
    ThroughText c fun parts => c.stringPart depth (context.fill parts)
  | .template layout inner => by
      simp only [Expr.Context.fill, stringPart]
      exact (throughText_template c (depth + 1) inner).below
  | .heredoc layout indented inner => by
      simp only [Expr.Context.fill, stringPart]
      exact (throughText_template c (depth + 1) inner).below
  | .yes layout condition yes no => by
      have h := (throughText_stringPart c (depth + 1) yes).followed fun yes =>
        c.stringPart (depth + 1) no >>= fun no =>
          pure (choiceText (c.sourceText condition) yes no)
      simpa only [Expr.Context.fill, stringPart] using h.below
  | .no layout condition yes no => by
      have h := (throughText_stringPart c (depth + 1) no).within (c.stringPart (depth + 1) yes)
        fun yes no => pure (choiceText (c.sourceText condition) yes no)
      simpa only [Expr.Context.fill, stringPart] using h.below

end

theorem template_conditional (c : Conversion) (depth : Nat) (layout inside : Layout) (trim : Trim)
    (condition yes no : Expr) (choiceLayout yesLayout noLayout : Layout)
    (ifTrim elseTrim endTrim yesTrim noTrim : Trim) :
    c.template depth [.interpolation layout trim (.conditional inside condition yes no)] =
      c.template depth [.choice choiceLayout ifTrim elseTrim endTrim condition
        [.interpolation yesLayout yesTrim yes] (some [.interpolation noLayout noTrim no])] := by
  simp only [template, stringPart, optionalTemplate, bind_assoc, pure_bind, String.append_empty]

theorem template_of_below {parts : Template} (h : c.template (depth + 1) parts = .ok text) :
    c.template depth parts = .ok text := by
  have hlimited : (c.limited c.options.maxDepth).template (depth + 1) parts = .ok text := h
  have hexactly := ((Settled.law c).texts.2.1 0 parts).exactly hlimited
  exact hexactly.of_below hlimited

theorem template_of_interpolation {layout : Layout} {trim : Trim} {e : Expr} {parts : Template}
    (hparts : e.templateParts? = some parts)
    (h : c.template depth [.interpolation layout trim e] = .ok text) :
    c.template depth parts = .ok text := by
  rw [template_single] at h
  cases e with
  | template layout inner =>
      cases hparts
      rw [stringPart] at h
      obtain ⟨below, hlevel, h⟩ := bind_eq_ok_iff.mp h
      rw [descend_eq_ok hlevel] at h
      exact template_of_below h
  | heredoc layout indented inner =>
      cases hparts
      rw [stringPart] at h
      obtain ⟨below, hlevel, h⟩ := bind_eq_ok_iff.mp h
      rw [descend_eq_ok hlevel] at h
      exact template_of_below h
  | _ => cases hparts

/-- Wherever it stands, an interpolation of a conditional gives the same text or error as the choice
with the same condition and branches. Wherever a text comes of an interpolation of a template, it
also comes of the parts of that template in the place of the interpolation. -/
theorem fill_renders_alike (c : Conversion) (depth : Nat) (context : Template.Context) :
    (∀ layout trim inside condition yes no choiceLayout ifTrim elseTrim endTrim yesLayout yesTrim
        noLayout noTrim,
      c.template depth
          (context.fill [.interpolation layout trim (.conditional inside condition yes no)]) =
        c.template depth
          (context.fill [.choice choiceLayout ifTrim elseTrim endTrim condition
            [.interpolation yesLayout yesTrim yes] (some [.interpolation noLayout noTrim no])])) ∧
    ∀ layout trim e parts text, Expr.templateParts? e = some parts →
      c.template depth (context.fill [.interpolation layout trim e]) = .ok text →
      c.template depth (context.fill parts) = .ok text := by
  obtain ⟨level, before, hfill⟩ := throughText_template c depth context
  constructor
  · intro layout trim inside condition yes no choiceLayout ifTrim elseTrim endTrim yesLayout
      yesTrim noLayout noTrim
    simp only [hfill]
    rw [template_conditional]
  · intro layout trim e parts text hparts htext
    simp only [hfill] at htext ⊢
    obtain ⟨after, hbefore, htext⟩ := bind_eq_ok_iff.mp htext
    obtain ⟨inner, hinner, hafter⟩ := bind_eq_ok_iff.mp htext
    rw [hbefore, template_of_interpolation hparts hinner]
    exact hafter

/-- `a-${var.x ? "%{for x in var.x}<>%{endfor}" : ""}`, with the place between `<` and `>`. -/
def angled : Template.Context :=
  .inside [.literal "a-"] (.interpolation .nowhere ⟨false, false⟩
    (.yes .nowhere referenced
      (.template .nowhere (.inside []
        (.body .nowhere ⟨false, false⟩ ⟨false, false⟩ ⟨none, "x"⟩ referenced
          (.between [.literal "<"] [.literal ">"])) []))
      (.string .nowhere ""))) []

def lettered : Template :=
  [.literal "b", .interpolation .nowhere ⟨false, false⟩ (.bool .nowhere true)]

/-- The parts of `"b${true}"` in the place of its interpolation. -/
theorem fill_renders_alike_angled :
    (Expr.template .nowhere lettered).templateParts? = some lettered ∧
    referringSource.template 0
        (angled.fill [.interpolation .nowhere ⟨false, false⟩ (.template .nowhere lettered)]) =
      .ok "a-%\x7bif var.x\x7d%\x7bfor x in var.x\x7d<btrue>%\x7bendfor\x7d%\x7bendif\x7d" ∧
    referringSource.template 0 (angled.fill lettered) =
      .ok "a-%\x7bif var.x\x7d%\x7bfor x in var.x\x7d<btrue>%\x7bendfor\x7d%\x7bendif\x7d" := by
  have htext : referringSource.template 0
      (angled.fill [.interpolation .nowhere ⟨false, false⟩ (.template .nowhere lettered)]) =
      .ok "a-%\x7bif var.x\x7d%\x7bfor x in var.x\x7d<btrue>%\x7bendfor\x7d%\x7bendif\x7d" := rfl
  refine ⟨rfl, htext, ?_⟩
  exact (fill_renders_alike referringSource 0 angled).2 _ _ _ _ _ rfl htext

end Conversion

end HclToJson
