import HclToJson.Convert.Basic

namespace HclToJson

namespace Expr

/-- What an expression is to the one around it, and to the conversion. -/
inductive Form
  | literal
  | paren
  /-- Stands for itself, as its text. -/
  | quoted
  /-- Has a value that is put together or computed. -/
  | built
  deriving DecidableEq

def form : Expr → Form
  | null _ | bool .. | number .. | string .. => .literal
  | paren .. => .paren
  | var .. | conditional .. | call .. | traversal .. | binary .. | comprehension .. => .quoted
  | unary _ _ operand => if operand.literal?.isSome then .built else .quoted
  | array .. | object .. | template .. | heredoc .. => .built

/-- Whether an expression ends in a traversal, which an operator behind it would go on with. -/
def endsInSteps : Expr → Bool
  | traversal .. => true
  | conditional _ _ _ no => endsInSteps no
  | binary _ _ _ right => endsInSteps right
  | _ => false
  termination_by structural e => e

/-- Whether each item of an object but the last one has a comma behind it. -/
def separated : List Item → Bool
  | [] | [_] => true
  | .mk layout _ _ :: item :: rest =>
      layout.gaps.getLast? = some [Byte.comma] && separated (item :: rest)

mutual

/-- Whether the lines of an expression can be joined: no line end and no second item of the same key
sets the items of an object apart, and no line end keeps an ellipsis from being a step. -/
def joinable : Expr → Bool
  | null _ | bool .. | number .. | string .. | var .. => true
  | array _ items => joinableAll items
  | object layout items =>
      layout.gaps.length = items.length + 1 && separated items && joinableItems items
  | template _ elements => joinableElements elements
  | heredoc .. => false
  | paren _ inner => inner.joinable
  | conditional _ condition yes no => condition.joinable && yes.joinable && no.joinable
  | call _ _ arguments spread =>
      !(spread && arguments.getLast?.any (·.endsInSteps)) && joinableAll arguments
  | traversal _ base path => base.joinable && joinableSteps path
  | unary _ _ operand => operand.joinable
  | binary _ _ left right => left.joinable && right.joinable
  | comprehension _ _ collection key value grouping filter =>
      !(grouping && value.endsInSteps) && collection.joinable && joinableOptional key &&
        value.joinable && joinableOptional filter
  termination_by structural e => e

def joinableAll : List Expr → Bool
  | [] => true
  | e :: rest => e.joinable && joinableAll rest
  termination_by structural items => items

def joinableOptional : Option Expr → Bool
  | none => true
  | some e => e.joinable
  termination_by structural e => e

def joinableKey : Key → Bool
  | .ident _ => true
  | .expr e => e.joinable
  termination_by structural key => key

def joinableItems : List Item → Bool
  | [] => true
  | .mk _ key value :: rest => joinableKey key && value.joinable && joinableItems rest
  termination_by structural items => items

def joinableSteps : List Step → Bool
  | [] => true
  | .index _ key :: rest => key.joinable && joinableSteps rest
  | .attribute .. :: rest | .element .. :: rest | .attributeSplat _ :: rest
  | .fullSplat _ :: rest => joinableSteps rest
  termination_by structural path => path

def joinableElements : List Element → Bool
  | [] => true
  | .literal _ :: rest => joinableElements rest
  | .interpolation _ _ e :: rest => e.joinable && joinableElements rest
  | .choice _ _ _ _ condition yes no :: rest =>
      condition.joinable && joinableElements yes && joinableElse no && joinableElements rest
  | .repetition _ _ _ _ collection body :: rest =>
      collection.joinable && joinableElements body && joinableElements rest
  termination_by structural parts => parts

def joinableElse : Option (List Element) → Bool
  | none => true
  | some parts => joinableElements parts
  termination_by structural parts => parts

end

section

variable (e : Expr) (before after : Bytes)

@[simp] theorem form_between : (e.between before after).form = e.form := by
  cases e <;> rfl

@[simp] theorem endsInSteps_between : (e.between before after).endsInSteps = e.endsInSteps := by
  cases e <;> rfl

@[simp] theorem joinable_between : (e.between before after).joinable = e.joinable := by
  cases e <;> rfl

@[simp] theorem joinable_followedBy : (e.followedBy after).joinable = e.joinable := by
  cases e <;> rfl

@[simp] theorem joinable_withoutSpan : e.withoutSpan.joinable = e.joinable := by
  cases e <;> rfl

end

theorem form_eq_literal (e : Expr) : e.form = .literal ↔ e.literal?.isSome = true := by
  cases e <;> simp [form, literal?]
  split <;> simp

end Expr

end HclToJson
