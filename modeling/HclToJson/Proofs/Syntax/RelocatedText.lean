import HclToJson.Canonical
import HclToJson.Proofs.Syntax.Relocate

namespace HclToJson

variable (move : Span → Span)

namespace Spelling

open HclToJson.Expr

theorem node_relocate (layout : Layout) (children : List Bytes) :
    node (layout.relocate move) children = node layout children := rfl

mutual

theorem expr_relocate : (e : Expr) → expr (e.relocate move) = expr e
  | .null _ | .bool _ _ | .number _ _ | .var _ _ | .string _ _ => rfl
  | .array layout items | .call layout _ items _ => by
      simp only [relocate, expr, exprs_relocate items, node_relocate]
  | .object layout items => by
      simp only [relocate, expr, objectItems_relocate items, node_relocate]
  | .template layout parts | .heredoc layout _ parts => by
      simp only [relocate, expr, elements_relocate parts, node_relocate]
  | .paren layout inner | .unary layout _ inner => by
      simp only [relocate, expr, expr_relocate inner, node_relocate]
  | .conditional layout condition yes no => by
      simp only [relocate, expr, expr_relocate condition, expr_relocate yes, expr_relocate no,
        node_relocate]
  | .traversal layout base path => by
      simp only [relocate, expr, expr_relocate base, steps_relocate path, node_relocate]
  | .binary layout _ left right => by
      simp only [relocate, expr, expr_relocate left, expr_relocate right, node_relocate]
  | .comprehension layout _ collection key value _ filter => by
      simp only [relocate, expr, expr_relocate collection, optional_relocate key,
        expr_relocate value, optional_relocate filter, node_relocate]

theorem exprs_relocate : (items : List Expr) → exprs (relocateAll move items) = exprs items
  | [] => rfl
  | e :: rest => by simp only [relocateAll, exprs, expr_relocate e, exprs_relocate rest]

theorem optional_relocate : (e : Option Expr) → optional (relocateOptional move e) = optional e
  | none => rfl
  | some e => by simp only [relocateOptional, optional, expr_relocate e]

theorem itemKey_relocate : (key : Key) → itemKey (relocateKey move key) = itemKey key
  | .ident _ => rfl
  | .expr key => by simp only [relocateKey, itemKey, expr_relocate key]

theorem objectItems_relocate : (items : List Item) →
    objectItems (relocateItems move items) = objectItems items
  | [] => rfl
  | .mk layout key value :: rest => by
      simp only [relocateItems, objectItems, itemKey_relocate key, expr_relocate value,
        objectItems_relocate rest, node_relocate]

theorem steps_relocate : (path : List Step) → steps (relocateSteps move path) = steps path
  | [] => rfl
  | .attribute layout _ :: rest | .element layout _ :: rest | .attributeSplat layout :: rest
  | .fullSplat layout :: rest => by
      simp only [relocateSteps, steps, steps_relocate rest, node_relocate]
  | .index layout key :: rest => by
      simp only [relocateSteps, steps, expr_relocate key, steps_relocate rest, node_relocate]

theorem elements_relocate : (parts : Template) →
    elements (relocateElements move parts) = elements parts
  | [] => rfl
  | .literal text :: rest => by simp only [relocateElements, elements, elements_relocate rest]
  | .interpolation layout _ e :: rest => by
      simp only [relocateElements, elements, expr_relocate e, elements_relocate rest,
        node_relocate]
  | .choice layout _ _ _ condition yes no :: rest => by
      simp only [relocateElements, elements, expr_relocate condition, elements_relocate yes,
        otherwise_relocate no, elements_relocate rest, node_relocate]
  | .repetition layout _ _ _ collection body :: rest => by
      simp only [relocateElements, elements, expr_relocate collection, elements_relocate body,
        elements_relocate rest, node_relocate]

theorem otherwise_relocate : (no : Option Template) →
    otherwise (relocateElse move no) = otherwise no
  | none => rfl
  | some parts => by simp only [relocateElse, otherwise, elements_relocate parts]

end

theorem exprText_relocate (e : Expr) : exprText (e.relocate move) = exprText e := by
  rw [exprText, expr_relocate, exprText]

end Spelling

namespace Canonical

open HclToJson.Expr

theorem asWritten_relocate (e : Expr) : asWritten (e.relocate move) = asWritten e := by
  rw [asWritten, relocate_between, Spelling.exprText_relocate, asWritten]

mutual

theorem exprText_relocate (level : Nat) : (e : Expr) →
    exprText level (e.relocate move) = exprText level e
  | .null _ | .bool _ _ | .number _ _ | .var _ _ | .string _ _ => rfl
  | .array _ items => by
      simp only [relocate, exprText, elementTexts_relocate (level + 1) items]
  | .object _ items => by
      simp only [relocate, exprText, objectTexts_relocate (level + 1) items]
  | .template layout parts => by
      have htext := asWritten_relocate move (.template layout parts)
      simp only [relocate] at htext ⊢
      simp only [exprText, htext]
  | .heredoc layout indented parts => by
      have htext := asWritten_relocate move (.heredoc layout indented parts)
      simp only [relocate] at htext ⊢
      simp only [exprText, htext]
  | .paren _ inner | .unary _ _ inner => by
      simp only [relocate, exprText, exprText_relocate level inner]
  | .conditional _ condition yes no => by
      simp only [relocate, exprText, exprText_relocate level condition,
        exprText_relocate level yes, exprText_relocate level no]
  | .call _ _ arguments _ => by
      simp only [relocate, exprText, exprTexts_relocate level arguments]
  | .traversal _ base path => by
      simp only [relocate, exprText, exprText_relocate level base, pathText_relocate level path]
  | .binary _ _ left right => by
      simp only [relocate, exprText, exprText_relocate level left, exprText_relocate level right]
  | .comprehension _ _ collection key value _ filter => by
      have hkey : (relocateOptional move key).isSome = key.isSome := by cases key <;> rfl
      simp only [relocate, exprText, exprText_relocate level collection,
        optionalText_relocate level key, exprText_relocate level value,
        filterText_relocate level filter, hkey]

theorem optionalText_relocate (level : Nat) : (e : Option Expr) →
    optionalText level (relocateOptional move e) = optionalText level e
  | none => rfl
  | some e => by simp only [relocateOptional, optionalText, exprText_relocate level e]

theorem filterText_relocate (level : Nat) : (filter : Option Expr) →
    filterText level (relocateOptional move filter) = filterText level filter
  | none => rfl
  | some filter => by simp only [relocateOptional, filterText, exprText_relocate level filter]

theorem exprTexts_relocate (level : Nat) : (items : List Expr) →
    exprTexts level (relocateAll move items) = exprTexts level items
  | [] => rfl
  | e :: rest => by
      simp only [relocateAll, exprTexts, exprText_relocate level e, exprTexts_relocate level rest]

theorem elementTexts_relocate (level : Nat) : (items : List Expr) →
    elementTexts level (relocateAll move items) = elementTexts level items
  | [] => rfl
  | e :: rest => by
      simp only [relocateAll, elementTexts, exprText_relocate level e,
        elementTexts_relocate level rest]

theorem keyText_relocate (level : Nat) : (key : Key) →
    keyText level (relocateKey move key) = keyText level key
  | .ident _ => rfl
  | .expr key => by simp only [relocateKey, keyText, exprText_relocate level key]

theorem objectTexts_relocate (level : Nat) : (items : List Item) →
    objectTexts level (relocateItems move items) = objectTexts level items
  | [] => rfl
  | .mk _ key value :: rest => by
      simp only [relocateItems, objectTexts, keyText_relocate level key,
        exprText_relocate level value, objectTexts_relocate level rest]

theorem pathText_relocate (level : Nat) : (path : List Step) →
    pathText level (relocateSteps move path) = pathText level path
  | [] => rfl
  | .attribute _ _ :: rest | .element _ _ :: rest | .attributeSplat _ :: rest
  | .fullSplat _ :: rest => by
      simp only [relocateSteps, pathText, pathText_relocate level rest]
  | .index _ key :: rest => by
      simp only [relocateSteps, pathText, exprText_relocate level key,
        pathText_relocate level rest]

end

theorem shown_relocate (e : Expr) : Canonical.expr (e.relocate move) = Canonical.expr e := by
  rw [Canonical.expr, exprText_relocate, Canonical.expr]

end Canonical

end HclToJson
