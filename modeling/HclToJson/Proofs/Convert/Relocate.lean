import HclToJson.Proofs.Convert.Depth
import HclToJson.Proofs.Syntax.RelocatedText

namespace HclToJson

/-- The same error, with the expression that it is about in another place. -/
def ConvertError.relocate (move : Span → Span) : ConvertError → ConvertError
  | evaluation text cause context => evaluation text cause (context.relocate move)
  | e => e

theorem ConvertError.message_relocate (move : Span → Span) (e : ConvertError) :
    (e.relocate move).message = e.message := by
  cases e with
  | mergeConflict path => rfl
  | evaluation text cause context =>
      change s!"unable to evaluate `{text}`: {Eval.errorMessage cause (context.relocate move)}" = _
      rw [Eval.errorMessage, Canonical.shown_relocate]
      rfl
  | depthExceeded limit => rfl

/-- A computation gives what another one gives, with errors about expressions in another place. -/
def Moved (move : Span → Span) (moved run : Except ConvertError α) : Prop :=
  moved = run.mapError (ConvertError.relocate move)

namespace Moved

variable {move : Span → Span}

theorem pure (value : α) : Moved move (Pure.pure value) (Pure.pure value) := rfl

theorem bind {x x' : Except ConvertError α} {f f' : α → Except ConvertError β}
    (hx : Moved move x' x) (hf : ∀ a, Moved move (f' a) (f a)) :
    Moved move (x' >>= f') (x >>= f) := by
  rw [Moved] at hx
  rw [hx]
  cases x with
  | error e => rfl
  | ok a => exact hf a

theorem map {x x' : Except ConvertError α} (hx : Moved move x' x) (f : α → β) :
    Moved move (x' >>= fun a => Pure.pure (f a)) (x >>= fun a => Pure.pure (f a)) :=
  hx.bind fun a => .pure (f a)

end Moved

namespace Expr

theorem all_isFixed_relocateSteps (move : Span → Span) (path : List Step) :
    (relocateSteps move path).all (·.isFixed) = path.all (·.isFixed) := by
  induction path with
  | nil => rfl
  | cons step rest ih =>
      cases step with
      | index layout key => cases key <;> exact congrArg₂ and rfl ih
      | _ => exact congrArg₂ and rfl ih

theorem isReference_relocate (move : Span → Span) (e : Expr) :
    (e.relocate move).isReference = e.isReference := by
  cases e with
  | traversal layout base path =>
      cases base <;> simp [relocate, isReference, all_isFixed_relocateSteps]
  | _ => rfl

theorem literal?_relocate (move : Span → Span) (e : Expr) :
    (e.relocate move).literal? = e.literal? := by
  cases e <;> rfl

end Expr

namespace Conversion

open HclToJson.Expr

/-- The same conversion over another source. -/
def withSource (c : Conversion) (source : Bytes) : Conversion := { c with source := source }

/-- Ranges hold the same texts where they are moved to in another source. -/
def Carried (c : Conversion) (source : Bytes) (move : Span → Span) (spans : List Span) : Prop :=
  ∀ span ∈ spans, Source.extract? source (move span) = Source.extract? c.source span

variable {c : Conversion} {source : Bytes} {move : Span → Span}

theorem carried_append_iff {front back : List Span} :
    c.Carried source move (front ++ back) ↔
      c.Carried source move front ∧ c.Carried source move back :=
  List.forall_mem_append

theorem sourceText_relocate {e : Expr} (h : c.Carried source move e.spans) :
    (c.withSource source).sourceText (e.relocate move) = c.sourceText e := by
  have hbind : (e.relocate move).span.bind (Source.extract? source) =
      e.span.bind (Source.extract? c.source) := by
    rw [span_relocate]
    cases hspan : e.span with
    | none => rfl
    | some span => exact h span (mem_spans hspan)
  simp only [sourceText, withSource, hbind, Spelling.exprText_relocate]

theorem verbatim_relocate {e : Expr} (h : c.Carried source move e.spans) :
    (c.withSource source).verbatim (e.relocate move) = c.verbatim e := by
  rw [verbatim, verbatim, referenceText, referenceText, isReference_relocate,
    sourceText_relocate h]
  rfl

theorem moved_descend (depth : Nat) :
    Moved move ((c.withSource source).descend depth) (c.descend depth) := by
  rw [Moved, descend_eq, descend_eq]
  change (if depth < c.options.maxDepth then _ else _) = _
  split <;> rfl

theorem moved_leaf (depth : Nat) {run run' : Except ConvertError α} (h : Moved move run' run) :
    Moved move (do discard ((c.withSource source).descend depth); run')
      (do discard (c.descend depth); run) :=
  ((moved_descend depth).map _).bind fun _ => h

theorem moved_verbatim (depth : Nat) {e : Expr} (h : c.Carried source move e.spans)
    (f : String → α) :
    Moved move
      (do discard ((c.withSource source).descend depth)
          return f ((c.withSource source).verbatim (e.relocate move)))
      (do discard (c.descend depth); return f (c.verbatim e)) := by
  rw [verbatim_relocate h]
  exact moved_leaf depth (.pure _)

mutual

theorem stringPart_moved (depth : Nat) : (e : Expr) → c.Carried source move e.spans →
    Moved move ((c.withSource source).stringPart depth (e.relocate move)) (c.stringPart depth e)
  | .bool .., _ | .number .., _ | .string .., _ => moved_leaf depth (.pure _)
  | .template _ parts, h | .heredoc _ _ parts, h => by
      rw [spans, carried_append_iff] at h
      rw [relocate, stringPart, stringPart]
      exact (moved_descend depth).bind fun below => template_moved below parts h.2
  | .conditional _ condition yes no, h => by
      simp only [spans, carried_append_iff] at h
      obtain ⟨-, hcondition, hyes, hno⟩ := h
      rw [relocate, stringPart, stringPart, sourceText_relocate hcondition]
      refine (moved_descend depth).bind fun below => ?_
      refine (stringPart_moved below yes hyes).bind fun yes => ?_
      exact (stringPart_moved below no hno).map _
  | .null _, h | .var .., h | .array .., h | .object .., h | .paren .., h | .call .., h
  | .traversal .., h | .unary .., h | .binary .., h | .comprehension .., h =>
      moved_verbatim depth h id

theorem template_moved (depth : Nat) : (parts : Template) →
    c.Carried source move (partsSpans parts) →
    Moved move ((c.withSource source).template depth (relocateElements move parts))
      (c.template depth parts)
  | [], _ => .pure ""
  | .literal text :: rest, h => by
      rw [relocateElements, template, template]
      exact (template_moved depth rest h).map _
  | .interpolation _ _ e :: rest, h => by
      simp only [partsSpans, carried_append_iff] at h
      rw [relocateElements, template, template]
      refine (stringPart_moved depth e h.2.1).bind fun text => ?_
      exact (template_moved depth rest h.2.2).map _
  | .choice _ _ _ _ condition yes no :: rest, h => by
      simp only [partsSpans, carried_append_iff] at h
      obtain ⟨-, hcondition, hyes, hno, hrest⟩ := h
      rw [relocateElements, template, template, sourceText_relocate hcondition]
      refine (moved_descend depth).bind fun below => ?_
      refine (template_moved below yes hyes).bind fun yes => ?_
      refine (optionalTemplate_moved below no hno).bind fun no => ?_
      exact (template_moved depth rest hrest).map _
  | .repetition _ _ _ loop collection body :: rest, h => by
      simp only [partsSpans, carried_append_iff] at h
      obtain ⟨-, hcollection, hbody, hrest⟩ := h
      rw [relocateElements, template, template, sourceText_relocate hcollection]
      refine (moved_descend depth).bind fun below => ?_
      refine (template_moved below body hbody).bind fun body => ?_
      exact (template_moved depth rest hrest).map _

theorem optionalTemplate_moved (depth : Nat) : (no : Option Template) →
    c.Carried source move (elseSpans no) →
    Moved move ((c.withSource source).optionalTemplate depth (relocateElse move no))
      (c.optionalTemplate depth no)
  | none, _ => .pure ""
  | some parts, h => by
      rw [relocateElse, optionalTemplate, optionalTemplate]
      exact template_moved depth parts h

end

theorem objectKey_moved (depth : Nat) (key : Key) (h : c.Carried source move (keySpans key)) :
    Moved move ((c.withSource source).objectKey depth (relocateKey move key))
      (c.objectKey depth key) := by
  cases key with
  | ident name => exact .pure name
  | expr e =>
      have hpart := stringPart_moved depth e h
      cases e with
      | var layout name =>
          rw [objectKey, ← sourceText_relocate h]
          exact .pure _
      | traversal layout base path =>
          rw [objectKey, ← sourceText_relocate h]
          exact .pure _
      | _ => exact hpart

theorem unaryValue_moved {layout : Layout} {op : UnaryOp} {operand : Expr}
    (h : c.Carried source move (Expr.unary layout op operand).spans) :
    Moved move ((c.withSource source).unaryValue (layout.relocate move) op (operand.relocate move))
      (c.unaryValue layout op operand) := by
  have htext : (c.withSource source).sourceText
      (.unary (layout.relocate move) op (operand.relocate move)) = _ := sourceText_relocate h
  rw [unaryValue, unaryValue, htext, literal?_relocate]
  cases operand.literal? with
  | none => exact .pure _
  | some literal =>
      dsimp only
      cases Eval.applyUnary op literal with
      | ok value => exact .pure _
      | error cause => rfl

mutual

theorem expression_moved (depth : Nat) : (e : Expr) → c.Carried source move e.spans →
    Moved move ((c.withSource source).expression depth (e.relocate move)) (c.expression depth e)
  | .null _, _ | .bool .., _ | .number .., _ | .string .., _ => moved_leaf depth (.pure _)
  | .unary .., h => moved_leaf depth (unaryValue_moved h)
  | .template _ [.interpolation _ _ e], h => by
      simp only [spans, partsSpans, carried_append_iff] at h
      exact (moved_descend depth).bind fun below => expression_moved below e h.2.2.1
  | .template _ [], h | .template _ (.literal _ :: _), h | .template _ (.choice .. :: _), h
  | .template _ (.repetition .. :: _), h | .template _ (.interpolation .. :: .literal _ :: _), h
  | .template _ (.interpolation .. :: .interpolation .. :: _), h
  | .template _ (.interpolation .. :: .choice .. :: _), h
  | .template _ (.interpolation .. :: .repetition .. :: _), h =>
      (moved_descend depth).bind fun below =>
        (template_moved below _ (carried_append_iff.mp h).2).map _
  | .heredoc _ _ parts, h => by
      rw [spans, carried_append_iff] at h
      exact (moved_descend depth).bind fun below => (template_moved below parts h.2).map _
  | .array _ items, h => by
      rw [spans, carried_append_iff] at h
      exact (moved_descend depth).bind fun below => (expressions_moved below items h.2).map _
  | .object _ items, h => by
      rw [spans, carried_append_iff] at h
      exact (moved_descend depth).bind fun below => (objectItems_moved below items h.2).map _
  | .var .., h | .paren .., h | .conditional .., h | .call .., h | .traversal .., h | .binary .., h
  | .comprehension .., h => moved_verbatim depth h Value.string
  termination_by structural e => e

theorem expressions_moved (depth : Nat) : (items : List Expr) →
    c.Carried source move (itemsSpans items) →
    Moved move ((c.withSource source).expressions depth (relocateAll move items))
      (c.expressions depth items)
  | [], _ => .pure []
  | e :: rest, h => by
      rw [itemsSpans, carried_append_iff] at h
      rw [relocateAll, expressions, expressions]
      refine (expression_moved depth e h.1).bind fun value => ?_
      exact (expressions_moved depth rest h.2).map _
  termination_by structural items => items

theorem objectItems_moved (depth : Nat) : (items : List Item) →
    c.Carried source move (entriesSpans items) →
    Moved move ((c.withSource source).objectItems depth (relocateItems move items))
      (c.objectItems depth items)
  | [], _ => .pure []
  | .mk _ key value :: rest, h => by
      simp only [entriesSpans, carried_append_iff] at h
      obtain ⟨-, hkey, hvalue, hrest⟩ := h
      rw [relocateItems, objectItems, objectItems]
      refine (objectKey_moved depth key hkey).bind fun key => ?_
      refine (expression_moved depth value hvalue).bind fun value => ?_
      exact (objectItems_moved depth rest hrest).map _
  termination_by structural items => items

end

end Conversion

end HclToJson
