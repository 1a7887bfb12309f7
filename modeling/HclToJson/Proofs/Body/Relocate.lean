import HclToJson.Proofs.Body.Steps
import HclToJson.Proofs.Convert.Relocate

namespace HclToJson.Conversion

open Object Body

variable {c : Conversion} {source : Bytes} {move : Span → Span}

theorem attributes_moved (depth : Nat) (structures : Body)
    (h : c.Carried source move structures.spans) :
    Moved move ((c.withSource source).attributes depth (structures.relocate move))
      (c.attributes depth structures) := by
  induction structures with
  | nil => exact .pure []
  | cons item rest ih =>
      rw [spans, carried_append_iff] at h
      obtain ⟨hitem, hrest⟩ := h
      rcases item with ⟨key, value⟩ | ⟨ident, labels, inner⟩
      · exact (expression_moved depth value hitem).bind fun value => (ih hrest).map _
      · exact ih hrest

mutual

theorem blockBody_moved (depth : Nat) : (item : Structure) → c.Carried source move item.spans →
    Moved move ((c.withSource source).blockBody depth (item.relocate move)) (c.blockBody depth item)
  | .attribute .., _ => .pure []
  | .block ident labels inner, h => by
      rw [Structure.relocate, blockBody_block, blockBody_block, body_eq_bind, body_eq_bind]
      refine (moved_descend depth).bind fun below => ?_
      refine (attributes_moved below inner h).bind fun entries => ?_
      exact mergeBlocks_moved below inner (Entries.ofList entries) h

theorem mergeBlocks_moved (depth : Nat) : (structures : Body) → (out : Object) →
    c.Carried source move structures.spans →
    Moved move (finished ((c.withSource source).mergeBlocks depth (structures.relocate move) out))
      (finished (c.mergeBlocks depth structures out))
  | [], out, _ => .pure out
  | .attribute _ _ :: rest, out, h => mergeBlocks_moved depth rest out (carried_append_iff.mp h).2
  | .block ident labels inner :: rest, out, h => by
      rw [spans, carried_append_iff] at h
      obtain ⟨hblock, hrest⟩ := h
      have hinner := blockBody_moved depth (.block ident labels inner) hblock
      rw [Structure.relocate, blockBody_block, blockBody_block] at hinner
      rw [relocate, Structure.relocate, finished_mergeBlocks_block, finished_mergeBlocks_block]
      refine hinner.bind fun object => ?_
      split
      · exact mergeBlocks_moved depth rest _ hrest
      · rfl

end

theorem body_moved (depth : Nat) (structures : Body) (h : c.Carried source move structures.spans) :
    Moved move ((c.withSource source).body depth (structures.relocate move))
      (c.body depth structures) := by
  have hblock := blockBody_moved depth (.block "" [] structures) h
  rwa [Structure.relocate, blockBody_block, blockBody_block] at hblock

theorem carried_shift {before source after : Bytes} {options : Options} {spans : List Span}
    (h : ∀ span ∈ spans, span.stop ≤ source.length) :
    Carried ⟨source, options⟩ (before ++ source ++ after) (Span.shift before.length) spans := by
  intro span hspan
  rw [Source.extract?, Source.extract?, Span.slice?_shift (h span hspan)]

/-- A conversion sees nothing of the document around the ranges of what it converts: with any text in
front and behind, the moved expression or body has the value it has alone, or the same error with
the same message. -/
theorem conversion_local (before source after : Bytes) (options : Options) (depth : Nat) :
    (∀ e : Expr, (∀ span ∈ e.spans, span.stop ≤ source.length) →
      Conversion.expression ⟨before ++ source ++ after, options⟩ depth
          (e.relocate (Span.shift before.length)) =
        (Conversion.expression ⟨source, options⟩ depth e).mapError
          (ConvertError.relocate (Span.shift before.length))) ∧
    (∀ structures : Body, (∀ span ∈ structures.spans, span.stop ≤ source.length) →
      Conversion.body ⟨before ++ source ++ after, options⟩ depth
          (structures.relocate (Span.shift before.length)) =
        (Conversion.body ⟨source, options⟩ depth structures).mapError
          (ConvertError.relocate (Span.shift before.length))) ∧
    ∀ error : ConvertError,
      (error.relocate (Span.shift before.length)).message = error.message := by
  refine ⟨?_, ?_, ?_⟩
  · intro e h
    exact expression_moved depth e (carried_shift h)
  · intro structures h
    exact body_moved depth structures (carried_shift h)
  · exact ConvertError.message_relocate (Span.shift before.length)

def openQuoteText : Bytes := Text.encode "a = \"/* '"

/-- A call with a comment in it, and an operator that cannot be applied. -/
def commentedText : Bytes := Text.encode "b \x7b k = f(x, # \"\ny) \x7d\nn = - /* off */ true\n"

def commentedCall : Expr :=
  .call ⟨some ⟨8, 19⟩, [], [], []⟩ "f"
    [.var ⟨some ⟨10, 11⟩, [], [], []⟩ "x", .var ⟨some ⟨17, 18⟩, [], [], []⟩ "y"] false

def commentedUnary : Expr :=
  .unary ⟨some ⟨26, 42⟩, [], [], []⟩ .neg (.bool ⟨some ⟨38, 42⟩, [], [], []⟩ true)

/-- A string and a comment that are open in front reach neither value nor error. -/
theorem conversion_local_commented :
    (∀ span ∈ commentedUnary.spans, span.stop ≤ commentedText.length) ∧
    Conversion.expression ⟨openQuoteText ++ commentedText ++ [Byte.quote], {}⟩ 0
        (commentedUnary.relocate (Span.shift 9)) =
      .error (.evaluation "- true" (.unaryNotApplicable .neg (.bool true))
        (commentedUnary.relocate (Span.shift 9))) ∧
    (∀ span ∈ Body.spans [.block "b" [] [.attribute "k" commentedCall]],
      span.stop ≤ commentedText.length) ∧
    Conversion.body ⟨openQuoteText ++ commentedText ++ [Byte.quote], {}⟩ 0
        (Body.relocate (Span.shift 9) [.block "b" [] [.attribute "k" commentedCall]]) =
      .ok [("b", .object [("k", .string "f(x, y)")])] := by
  have hunary : ∀ span ∈ commentedUnary.spans, span.stop ≤ commentedText.length := by
    decide +kernel
  have hcall : ∀ span ∈ Body.spans [.block "b" [] [.attribute "k" commentedCall]],
      span.stop ≤ commentedText.length := by
    decide +kernel
  have hunaryText : Conversion.sourceText ⟨commentedText, {}⟩ commentedUnary = "- true" := by
    decide +kernel
  have hcallText : Conversion.sourceText ⟨commentedText, {}⟩ commentedCall = "f(x, y)" := by
    decide +kernel
  obtain ⟨hexpression, hbody, -⟩ := conversion_local openQuoteText commentedText [Byte.quote] {} 0
  refine ⟨hunary, ?_, hcall, ?_⟩
  · rw [← hunaryText]
    exact hexpression commentedUnary hunary
  · rw [← hcallText]
    exact hbody _ hcall

end HclToJson.Conversion
