import Mathlib.Tactic.Common
import HclToJson.Syntax

namespace HclToJson

/-- The range that many bytes further on. -/
def Span.shift (n : Nat) (span : Span) : Span := ⟨span.start + n, span.stop + n⟩

/-- A range of a text holds the same bytes where it is when there is more text in front and behind. -/
theorem Span.slice?_shift {before text after : Bytes} {span : Span}
    (h : span.stop ≤ text.length) :
    (span.shift before.length).slice? (before ++ text ++ after) = span.slice? text := by
  by_cases hle : span.start ≤ span.stop
  · have hlength : span.stop + before.length ≤ (before ++ text ++ after).length := by
      simp only [List.length_append]
      omega
    have hdrop : (before ++ text ++ after).drop (span.start + before.length) =
        text.drop span.start ++ after := by
      rw [List.append_assoc, Nat.add_comm, ← List.drop_drop, List.drop_left,
        List.drop_append_of_le_length (Nat.le_trans hle h)]
    rw [slice?, slice?, if_pos ⟨Nat.add_le_add_right hle _, hlength⟩, if_pos ⟨hle, h⟩]
    simp only [shift, Nat.add_sub_add_right]
    rw [hdrop, List.take_append_of_le_length (by rw [List.length_drop]; omega)]
  · rw [slice?, slice?, if_neg fun hspan => hle (Nat.le_of_add_le_add_right hspan.1),
      if_neg fun hspan => hle hspan.1]

namespace Layout

def relocate (move : Span → Span) (layout : Layout) : Layout :=
  { layout with span := layout.span.map move }

def spans (layout : Layout) : List Span := layout.span.toList

end Layout

namespace Expr

mutual

/-- An expression in another place. -/
def relocate (move : Span → Span) : Expr → Expr
  | null layout => null (layout.relocate move)
  | bool layout value => bool (layout.relocate move) value
  | number layout value => number (layout.relocate move) value
  | string layout value => string (layout.relocate move) value
  | var layout name => var (layout.relocate move) name
  | array layout items => array (layout.relocate move) (relocateAll move items)
  | object layout items => object (layout.relocate move) (relocateItems move items)
  | template layout parts => template (layout.relocate move) (relocateElements move parts)
  | heredoc layout indented parts =>
      heredoc (layout.relocate move) indented (relocateElements move parts)
  | paren layout inner => paren (layout.relocate move) (relocate move inner)
  | conditional layout condition yes no =>
      conditional (layout.relocate move) (relocate move condition) (relocate move yes)
        (relocate move no)
  | call layout name arguments spread =>
      call (layout.relocate move) name (relocateAll move arguments) spread
  | traversal layout base path =>
      traversal (layout.relocate move) (relocate move base) (relocateSteps move path)
  | unary layout op operand => unary (layout.relocate move) op (relocate move operand)
  | binary layout op left right =>
      binary (layout.relocate move) op (relocate move left) (relocate move right)
  | comprehension layout loop collection key value grouping filter =>
      comprehension (layout.relocate move) loop (relocate move collection)
        (relocateOptional move key) (relocate move value) grouping (relocateOptional move filter)
  termination_by structural e => e

def relocateAll (move : Span → Span) : List Expr → List Expr
  | [] => []
  | e :: rest => relocate move e :: relocateAll move rest
  termination_by structural items => items

def relocateOptional (move : Span → Span) : Option Expr → Option Expr
  | none => none
  | some e => some (relocate move e)
  termination_by structural e => e

def relocateKey (move : Span → Span) : Key → Key
  | .ident name => .ident name
  | .expr key => .expr (relocate move key)
  termination_by structural key => key

def relocateItems (move : Span → Span) : List Item → List Item
  | [] => []
  | .mk layout key value :: rest =>
      .mk (layout.relocate move) (relocateKey move key) (relocate move value) ::
        relocateItems move rest
  termination_by structural items => items

def relocateSteps (move : Span → Span) : List Step → List Step
  | [] => []
  | .attribute layout name :: rest =>
      .attribute (layout.relocate move) name :: relocateSteps move rest
  | .element layout index :: rest =>
      .element (layout.relocate move) index :: relocateSteps move rest
  | .index layout key :: rest =>
      .index (layout.relocate move) (relocate move key) :: relocateSteps move rest
  | .attributeSplat layout :: rest =>
      .attributeSplat (layout.relocate move) :: relocateSteps move rest
  | .fullSplat layout :: rest => .fullSplat (layout.relocate move) :: relocateSteps move rest
  termination_by structural path => path

def relocateElements (move : Span → Span) : Template → Template
  | [] => []
  | .literal text :: rest => .literal text :: relocateElements move rest
  | .interpolation layout trim e :: rest =>
      .interpolation (layout.relocate move) trim (relocate move e) :: relocateElements move rest
  | .choice layout ifTrim elseTrim endTrim condition yes no :: rest =>
      .choice (layout.relocate move) ifTrim elseTrim endTrim (relocate move condition)
        (relocateElements move yes) (relocateElse move no) :: relocateElements move rest
  | .repetition layout forTrim endTrim loop collection body :: rest =>
      .repetition (layout.relocate move) forTrim endTrim loop (relocate move collection)
        (relocateElements move body) :: relocateElements move rest
  termination_by structural parts => parts

def relocateElse (move : Span → Span) : Option Template → Option Template
  | none => none
  | some parts => some (relocateElements move parts)
  termination_by structural parts => parts

end

mutual

/-- Where an expression and all that is in it stand. -/
def spans : Expr → List Span
  | null layout | bool layout _ | number layout _ | string layout _ | var layout _ => layout.spans
  | array layout items | call layout _ items _ => layout.spans ++ itemsSpans items
  | object layout items => layout.spans ++ entriesSpans items
  | template layout parts | heredoc layout _ parts => layout.spans ++ partsSpans parts
  | paren layout inner | unary layout _ inner => layout.spans ++ inner.spans
  | conditional layout condition yes no =>
      layout.spans ++ (condition.spans ++ (yes.spans ++ no.spans))
  | traversal layout base path => layout.spans ++ (base.spans ++ stepsSpans path)
  | binary layout _ left right => layout.spans ++ (left.spans ++ right.spans)
  | comprehension layout _ collection key value _ filter =>
      layout.spans ++ (collection.spans ++ (optionalSpans key ++
        (value.spans ++ optionalSpans filter)))
  termination_by structural e => e

def itemsSpans : List Expr → List Span
  | [] => []
  | e :: rest => e.spans ++ itemsSpans rest
  termination_by structural items => items

def optionalSpans : Option Expr → List Span
  | none => []
  | some e => e.spans
  termination_by structural e => e

def keySpans : Key → List Span
  | .ident _ => []
  | .expr key => key.spans
  termination_by structural key => key

def entriesSpans : List Item → List Span
  | [] => []
  | .mk layout key value :: rest =>
      layout.spans ++ (keySpans key ++ (value.spans ++ entriesSpans rest))
  termination_by structural items => items

def stepsSpans : List Step → List Span
  | [] => []
  | .attribute layout _ :: rest | .element layout _ :: rest | .attributeSplat layout :: rest
  | .fullSplat layout :: rest => layout.spans ++ stepsSpans rest
  | .index layout key :: rest => layout.spans ++ (key.spans ++ stepsSpans rest)
  termination_by structural path => path

def partsSpans : Template → List Span
  | [] => []
  | .literal _ :: rest => partsSpans rest
  | .interpolation layout _ e :: rest => layout.spans ++ (e.spans ++ partsSpans rest)
  | .choice layout _ _ _ condition yes no :: rest =>
      layout.spans ++ (condition.spans ++ (partsSpans yes ++ (elseSpans no ++ partsSpans rest)))
  | .repetition layout _ _ _ collection body :: rest =>
      layout.spans ++ (collection.spans ++ (partsSpans body ++ partsSpans rest))
  termination_by structural parts => parts

def elseSpans : Option Template → List Span
  | none => []
  | some parts => partsSpans parts
  termination_by structural parts => parts

end

theorem span_relocate (move : Span → Span) (e : Expr) : (e.relocate move).span = e.span.map move := by
  cases e <;> rfl

theorem relocate_between (move : Span → Span) (before after : Bytes) (e : Expr) :
    (e.relocate move).between before after = (e.between before after).relocate move := by
  cases e <;> rfl

theorem layout_spans_subset (e : Expr) : e.layout.spans ⊆ e.spans := by
  cases e <;> simp only [layout, spans, List.Subset.refl, List.subset_append_left]

theorem mem_spans {e : Expr} {span : Span} (h : e.span = some span) : span ∈ e.spans :=
  e.layout_spans_subset (Option.mem_toList.mpr h)

end Expr

mutual

def Structure.relocate (move : Span → Span) : Structure → Structure
  | .attribute key value => .attribute key (value.relocate move)
  | .block ident labels inner => .block ident labels (Body.relocate move inner)
  termination_by structural item => item

/-- A body in another place. -/
def Body.relocate (move : Span → Span) : Body → Body
  | [] => []
  | item :: rest => Structure.relocate move item :: Body.relocate move rest
  termination_by structural structures => structures

end

mutual

def Structure.spans : Structure → List Span
  | .attribute _ value => value.spans
  | .block _ _ inner => Body.spans inner
  termination_by structural item => item

/-- Where all the expressions of a body and its blocks stand. -/
def Body.spans : Body → List Span
  | [] => []
  | item :: rest => Structure.spans item ++ Body.spans rest
  termination_by structural structures => structures

end

end HclToJson
