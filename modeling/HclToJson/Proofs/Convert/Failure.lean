import HclToJson.Proofs.Convert.Levels
import HclToJson.Proofs.Eval.Constant
import HclToJson.Proofs.Syntax.Bare

namespace HclToJson

namespace Expr

mutual

/-- The expressions that become values of their own, in the order in which they are written. The way
to them leads through the elements of arrays, the values of objects, and quotes around a single
interpolation. -/
def reached : Expr → List Expr
  | .template _ [.interpolation _ _ inner] => inner.reached
  | .array _ items => itemsReached items
  | .object _ items => entriesReached items
  | e => [e]
  termination_by structural e => e

def itemsReached : List Expr → List Expr
  | [] => []
  | e :: rest => e.reached ++ itemsReached rest
  termination_by structural items => items

def entriesReached : List Item → List Expr
  | [] => []
  | .mk _ _ value :: rest => value.reached ++ entriesReached rest
  termination_by structural items => items

end

/-- An operator on a literal whose evaluation ends with an error. -/
def Misapplied : Expr → Prop
  | .unary layout op operand => operand.literal?.isSome = true ∧
      ∃ failure, Eval.evaluate (.unary layout op operand) = .error failure
  | _ => False

end Expr

namespace Eval

theorem evaluate_unary {layout : Layout} {op : UnaryOp} {operand : Expr} {literal : Static}
    (h : operand.literal? = some literal) :
    evaluate (.unary layout op operand) =
      (applyUnary op literal).mapError (.error · (.unary layout op operand)) := by
  have hconstant : (Expr.unary layout op operand).isConstant = true := by
    rw [Expr.isConstant, h]
    rfl
  rw [evaluate_of_isConstant hconstant, operands_unary h]
  rfl

/-- A minus has a value for numbers alone, and a not for booleans alone. -/
theorem applyUnary_eq_error_iff {op : UnaryOp} {literal : Static} :
    (∃ cause, applyUnary op literal = .error cause) ↔
      (op = .neg ∧ ∀ n, literal ≠ .number n) ∨ (op = .not ∧ ∀ b, literal ≠ .bool b) := by
  unfold applyUnary
  split
  · exact ⟨nofun, by simp⟩
  · exact ⟨nofun, by simp⟩
  · rename_i hneg hnot
    refine ⟨fun _ => ?_, fun _ => ⟨_, rfl⟩⟩
    cases op with
    | neg => exact Or.inl ⟨rfl, fun n hn => hneg n rfl hn⟩
    | not => exact Or.inr ⟨rfl, fun b hb => hnot b rfl hb⟩

end Eval

theorem Expr.misapplied_unary_iff {layout : Layout} {op : UnaryOp} {operand : Expr} :
    (Expr.unary layout op operand).Misapplied ↔
      ∃ literal, operand.literal? = some literal ∧
        ∃ cause, Eval.applyUnary op literal = .error cause := by
  rw [Misapplied, Option.isSome_iff_exists]
  constructor
  · rintro ⟨⟨literal, hliteral⟩, failure, hfailure⟩
    rw [Eval.evaluate_unary hliteral] at hfailure
    cases happly : Eval.applyUnary op literal with
    | ok value =>
        rw [happly] at hfailure
        cases hfailure
    | error cause => exact ⟨literal, hliteral, cause, happly⟩
  · rintro ⟨literal, hliteral, cause, hcause⟩
    refine ⟨⟨literal, hliteral⟩, .error cause (.unary layout op operand), ?_⟩
    rw [Eval.evaluate_unary hliteral, hcause]
    rfl

namespace Conversion

open HclToJson.Expr

variable {c : Conversion} {depth : Nat}

/-- The error of a computation, if there is one. -/
def failure? : Except ConvertError α → Option ConvertError
  | .ok _ => none
  | .error e => some e

theorem failure?_eq_some_iff {x : Except ConvertError α} {e : ConvertError} :
    failure? x = some e ↔ x = .error e := by
  cases x <;> simp [failure?]

/-- A computation and the next one fail with the first error that there is. -/
theorem failure?_bind {x : Except ConvertError α} {f : α → Except ConvertError β}
    {next : Option ConvertError} (hf : ∀ a, failure? (f a) = next) :
    failure? (x >>= f) = (failure? x).or next := by
  cases x with
  | error e => rfl
  | ok a => exact hf a

theorem failure?_map {x : Except ConvertError α} (f : α → β) :
    failure? (x >>= fun a => pure (f a)) = failure? x := by
  cases x <;> rfl

theorem failure?_leaf (hlevel : depth + 1 ≤ c.options.maxDepth) (x : Except ConvertError α) :
    failure? (discard (c.descend depth) >>= fun _ => x) = failure? x := by
  rw [discard_bind, descend_of_lt hlevel, ok_bind]

/-- A text never fails where there are levels enough. -/
theorem failure?_of_exactly {n limit : Nat} {run : Leveled α} (h : ∃ value, Exactly n run value)
    (hlevels : depth + n ≤ limit) : failure? (run limit depth) = none := by
  obtain ⟨value, h⟩ := h
  rw [h limit depth, if_pos (by omega)]
  rfl

theorem failure?_template {parts : Template}
    (hlevels : depth + partsLevels parts ≤ c.options.maxDepth) :
    failure? (c.template depth parts) = none :=
  failure?_of_exactly ((Exactly.textLaw c).texts.2.1 0 parts) hlevels

theorem failure?_objectKey {key : Key} (hlevels : depth + keyLevels key ≤ c.options.maxDepth) :
    failure? (c.objectKey depth key) = none :=
  failure?_of_exactly ((Exactly.textLaw c).objectKey key) hlevels

/-- The error that an expression causes by itself, if it does. -/
def refusal? (c : Conversion) : Expr → Option ConvertError
  | .unary layout op operand => failure? (c.unaryValue layout op operand)
  | _ => none

/-- With levels enough, the only errors are those of the expressions that become values, and the
first of them ends the conversion. -/
theorem failure?_values :
    (∀ (depth : Nat) e, depth + e.levels ≤ c.options.maxDepth →
      failure? (c.expression depth e) = e.reached.findSome? c.refusal?) ∧
    (∀ (depth : Nat) items, depth + entriesLevels items ≤ c.options.maxDepth →
      failure? (c.objectItems depth items) = (entriesReached items).findSome? c.refusal?) ∧
    (∀ (depth : Nat) items, depth + itemsLevels items ≤ c.options.maxDepth →
      failure? (c.expressions depth items) = (itemsReached items).findSome? c.refusal?) := by
  refine expression.mutual_induct _ _ _ ?null ?bool ?number ?string ?unary ?wrapped ?template
    ?heredoc ?array ?object ?other ?nil ?cons ?nilItems ?consItems
  case null =>
    intro depth layout hlevels
    rw [expression, failure?_leaf hlevels]
    rfl
  case bool =>
    intro depth layout value hlevels
    rw [expression, failure?_leaf hlevels]
    rfl
  case number =>
    intro depth layout value hlevels
    rw [expression, failure?_leaf hlevels]
    rfl
  case string =>
    intro depth layout value hlevels
    rw [expression, failure?_leaf hlevels]
    rfl
  case unary =>
    intro depth layout op operand hlevels
    rw [expression, failure?_leaf hlevels]
    simp only [reached, refusal?, List.findSome?_cons, List.findSome?_nil]
    cases failure? (c.unaryValue layout op operand) <;> rfl
  case wrapped =>
    intro depth layout inside trim inner ih hlevels
    rw [levels] at hlevels
    rw [expression, reached, descend_of_lt (by omega), ok_bind]
    exact ih (depth + 1) (by omega)
  case template =>
    intro depth layout parts hwrapped hlevels
    have hreached : (Expr.template layout parts).reached = [.template layout parts] := by
      rw [reached]
      · rintro _ inside trim inner ⟨⟩
        exact hwrapped inside trim inner rfl
      · rintro _ _ ⟨⟩
      · rintro _ _ ⟨⟩
    rw [levels] at hlevels
    · rw [expression, hreached, descend_of_lt (by omega), ok_bind, failure?_map,
        failure?_template (by omega)]
      · rfl
      · exact hwrapped
    · exact hwrapped
  case heredoc =>
    intro depth layout indented parts hlevels
    rw [levels] at hlevels
    rw [expression, descend_of_lt (by omega), ok_bind, failure?_map, failure?_template (by omega)]
    rfl
  case array =>
    intro depth layout items ih hlevels
    rw [levels] at hlevels
    rw [expression, reached, descend_of_lt (by omega), ok_bind, failure?_map]
    exact ih (depth + 1) (by omega)
  case object =>
    intro depth layout items ih hlevels
    rw [levels] at hlevels
    rw [expression, reached, descend_of_lt (by omega), ok_bind, failure?_map]
    exact ih (depth + 1) (by omega)
  case other =>
    intro depth e hnull hbool hnumber hstring hunary hwrapped htemplate hheredoc harray hobject
      hlevels
    rw [levels] at hlevels
    · rw [expression, failure?_leaf hlevels, reached, List.findSome?_singleton, refusal?]
      · rfl
      all_goals assumption
    all_goals assumption
  case nil =>
    intro depth _
    rfl
  case cons =>
    intro depth e rest ihe ih hlevels
    rw [itemsLevels] at hlevels
    rw [expressions, itemsReached, List.findSome?_append, ← ihe (by omega), ← ih (by omega)]
    exact failure?_bind fun value => failure?_map _
  case nilItems =>
    intro depth _
    rfl
  case consItems =>
    intro depth layout key value rest ihvalue ih hlevels
    rw [entriesLevels] at hlevels
    rw [objectItems, entriesReached, List.findSome?_append, ← ihvalue (by omega), ← ih (by omega)]
    rw [failure?_bind fun name => failure?_bind fun value => failure?_map _,
      failure?_objectKey (by omega), Option.none_or]

theorem refusal?_eq_some {e : Expr} {error : ConvertError} (h : c.refusal? e = some error) :
    e.Misapplied ∧ ∃ cause, Eval.evaluate e = .error (.error cause e) ∧
      error = .evaluation (c.sourceText e) cause e := by
  cases e with
  | unary layout op operand =>
      rw [refusal?, failure?_eq_some_iff] at h
      simp only [unaryValue] at h
      split at h
      · cases h
      · rename_i literal hliteral
        split at h
        · cases h
        · rename_i cause hcause
          cases h
          refine ⟨misapplied_unary_iff.mpr ⟨literal, hliteral, cause, hcause⟩, cause, ?_, rfl⟩
          rw [Eval.evaluate_unary hliteral, hcause]
          rfl
  | _ => cases h

theorem misapplied_iff {e : Expr} : e.Misapplied ↔ ∃ error, c.refusal? e = some error := by
  constructor
  · intro h
    cases e with
    | unary layout op operand =>
        obtain ⟨literal, hliteral, cause, hcause⟩ := misapplied_unary_iff.mp h
        simp only [refusal?, unaryValue, hliteral, hcause]
        exact ⟨_, rfl⟩
    | _ => cases h
  · rintro ⟨error, h⟩
    exact (refusal?_eq_some h).1

theorem Exactly.eq_depthExceeded {n limit : Nat} {run : Leveled α} {error : ConvertError}
    (h : ∃ value, Exactly n run value) (herror : run limit depth = .error error) :
    error = .depthExceeded limit := by
  obtain ⟨value, h⟩ := h
  rw [h limit depth] at herror
  split at herror
  · cases herror
  · cases herror
    rfl

/-- With levels enough, an expression fails if and only if it reaches an operator on a literal whose
evaluation ends with an error, and the error is that of the first one that it reaches. Such a one is
a minus on no number or a not on no boolean. Texts fail for want of levels alone. -/
theorem expression_fails_iff (c : Conversion) :
    (∀ (depth : Nat) e, depth + e.levels ≤ c.options.maxDepth →
      ((∃ error, c.expression depth e = .error error) ↔
        ∃ operation ∈ e.reached, operation.Misapplied) ∧
      ∀ error, c.expression depth e = .error error →
        ∃ before operation after cause, e.reached = before ++ operation :: after ∧
          (∀ other ∈ before, ¬ other.Misapplied) ∧ operation.Misapplied ∧
          Eval.evaluate operation = .error (.error cause operation) ∧
          error = .evaluation (c.sourceText operation) cause operation) ∧
    (∀ layout op operand, (Expr.unary layout op operand).Misapplied ↔
      ∃ literal, operand.literal? = some literal ∧
        ((op = .neg ∧ ∀ n, literal ≠ .number n) ∨ (op = .not ∧ ∀ b, literal ≠ .bool b))) ∧
    (∀ (depth : Nat) e error, c.stringPart depth e = .error error →
      error = .depthExceeded c.options.maxDepth) ∧
    ∀ (depth : Nat) parts error, c.template depth parts = .error error →
      error = .depthExceeded c.options.maxDepth := by
  refine ⟨fun depth e hlevels => ⟨?_, ?_⟩, ?_, ?_, ?_⟩
  · simp only [← failure?_eq_some_iff, failure?_values.1 depth e hlevels, misapplied_iff (c := c),
      ← Option.isSome_iff_exists, List.findSome?_isSome_iff]
  · intro error herror
    rw [← failure?_eq_some_iff, failure?_values.1 depth e hlevels,
      List.findSome?_eq_some_iff] at herror
    obtain ⟨before, operation, after, hreached, hrefusal, hbefore⟩ := herror
    obtain ⟨hmisapplied, cause, hevaluate, herror⟩ := refusal?_eq_some hrefusal
    refine ⟨before, operation, after, cause, hreached, ?_, hmisapplied, hevaluate, herror⟩
    intro other hother hmisapplied
    obtain ⟨_, hsome⟩ := (misapplied_iff (c := c)).mp hmisapplied
    rw [hbefore other hother] at hsome
    cases hsome
  · intro layout op operand
    simp only [misapplied_unary_iff, Eval.applyUnary_eq_error_iff]
  · intro depth e error herror
    exact Exactly.eq_depthExceeded ((Exactly.textLaw c).texts.1 0 e) herror
  · intro depth parts error herror
    exact Exactly.eq_depthExceeded ((Exactly.textLaw c).texts.2.1 0 parts) herror

/-- `-true`, which is all of its source. -/
def minusTrue : Expr := .unary ⟨some ⟨0, 5⟩, [], [], []⟩ .neg (.bool .nowhere true)

def minusSource (limit : Nat) : Conversion :=
  ⟨[Byte.minus, 0x74, 0x72, 0x75, 0x65], { maxDepth := limit }⟩

/-- `{ !null = "x", a = ["${-true}"], b = !"x" }` -/
def negating : Expr :=
  .object .nowhere
    [.mk .nowhere (.expr (.unary .nowhere .not (.null .nowhere))) (.string .nowhere "x"),
      .mk .nowhere (.ident "a") (.array .nowhere
        [.template .nowhere [.interpolation .nowhere ⟨false, false⟩ minusTrue]]),
      .mk .nowhere (.ident "b") (.unary .nowhere .not (.string .nowhere "x"))]

/-- The operator of the key is not reached, and of the two that are the first one is the error.
Texts fail where there are no levels. -/
theorem expression_fails_iff_negating :
    (0 + negating.levels ≤ 4 ∧
      (minusSource 4).expression 0 negating =
        .error (.evaluation "-true" (.unaryNotApplicable .neg (.bool true)) minusTrue)) ∧
    (∃ operation ∈ negating.reached, operation.Misapplied) ∧
    (∃ before operation after cause, negating.reached = before ++ operation :: after ∧
      (∀ other ∈ before, ¬ other.Misapplied) ∧ operation.Misapplied ∧
      Eval.evaluate operation = .error (.error cause operation) ∧
      ConvertError.evaluation "-true" (.unaryNotApplicable .neg (.bool true)) minusTrue =
        .evaluation ((minusSource 4).sourceText operation) cause operation) ∧
    (∃ error, (minusSource 0).stringPart 0 negating = .error error ∧ error = .depthExceeded 0) ∧
    ∃ error, (minusSource 0).template 0 [.interpolation .nowhere ⟨false, false⟩ minusTrue] =
      .error error ∧ error = .depthExceeded 0 := by
  have hlevels : 0 + negating.levels ≤ 4 := by decide
  have herror : (minusSource 4).expression 0 negating =
      .error (.evaluation "-true" (.unaryNotApplicable .neg (.bool true)) minusTrue) := rfl
  obtain ⟨hfails, hfirst⟩ := (expression_fails_iff (minusSource 4)).1 0 negating hlevels
  obtain ⟨-, -, hpart, htemplate⟩ := expression_fails_iff (minusSource 0)
  refine ⟨⟨hlevels, herror⟩, hfails.mp ⟨_, herror⟩, hfirst _ herror, ?_, ?_⟩
  · exact ⟨_, rfl, hpart 0 negating _ rfl⟩
  · exact ⟨_, rfl, htemplate 0 [.interpolation .nowhere ⟨false, false⟩ minusTrue] _ rfl⟩

end Conversion

end HclToJson
