import Mathlib.Tactic.Common
import HclToJson.Proofs.Convert.Depth
import HclToJson.Proofs.Object.Nesting

namespace HclToJson

/-- What a computation gives, if it gives anything, has a property. -/
def Gives (p : α → Prop) (x : Except ε α) : Prop := ∀ a, x = .ok a → p a

namespace Gives

variable {p : α → Prop} {q : β → Prop}

theorem pure {a : α} (h : p a) : Gives p (Pure.pure a : Except ε α) := by
  rintro _ ⟨⟩
  exact h

theorem bind {x : Except ε α} {f : α → Except ε β} (hx : Gives p x)
    (hf : ∀ a, p a → Gives q (f a)) : Gives q (x >>= f) := by
  cases x with
  | error e => exact nofun
  | ok a => exact hf a (hx a rfl)

/-- What is done after a computation whose result does not matter. -/
theorem after {x : Except ε γ} {y : Except ε β} (hy : Gives q y) :
    Gives q (discard x >>= fun _ => y) := by
  cases x with
  | error e => exact nofun
  | ok a => exact hy

end Gives

namespace Conversion

/-- The levels from a depth up to the limit. -/
def room (c : Conversion) (depth : Nat) : Nat := c.options.maxDepth - depth

variable {c : Conversion}

theorem nesting_number (n : Number) : n.toValue.nesting = 0 := by
  unfold Number.toValue
  cases n.toInt64? <;> rfl

theorem gives_descend (depth : Nat) :
    Gives (fun below => c.room depth = c.room below + 1) (c.descend depth) := by
  intro below h
  rw [descend_eq] at h
  split at h
  · cases h
    simp only [room]
    omega
  · cases h

theorem gives_applyUnary (op : UnaryOp) (operand : Static) :
    Gives (fun value => value.toValue.nesting = 0) (Eval.applyUnary op operand) := by
  unfold Eval.applyUnary
  split
  · exact .pure (nesting_number _)
  · exact .pure rfl
  · exact nofun

theorem gives_unaryValue (layout : Layout) (op : UnaryOp) (operand : Expr) :
    Gives (fun value => value.nesting = 0) (c.unaryValue layout op operand) := by
  simp only [unaryValue]
  split
  · exact .pure rfl
  · split
    · rename_i literal _ _ value happly
      exact .pure (gives_applyUnary op literal value happly)
    · exact nofun

/-- The value of an expression fits into the levels up to the limit. -/
theorem values_fit :
    (∀ (depth : Nat) e, Gives (Fits (c.room depth)) (c.expression depth e)) ∧
    (∀ (depth : Nat) items, Gives (fun entries => ∀ entry ∈ entries, Fits (c.room depth) entry.2)
      (c.objectItems depth items)) ∧
    (∀ (depth : Nat) items, Gives (fun values => ∀ value ∈ values, Fits (c.room depth) value)
      (c.expressions depth items)) := by
  refine expression.mutual_induct _ _ _ ?null ?bool ?number ?string ?unary ?wrapped ?template
    ?heredoc ?array ?object ?other ?nil ?cons ?nilItems ?consItems
  case null =>
    intro depth layout
    rw [expression]
    exact .after (.pure (.of_nesting_eq_zero rfl))
  case bool =>
    intro depth layout value
    rw [expression]
    exact .after (.pure (.of_nesting_eq_zero rfl))
  case number =>
    intro depth layout value
    rw [expression]
    exact .after (.pure (.of_nesting_eq_zero (nesting_number value)))
  case string =>
    intro depth layout value
    rw [expression]
    exact .after (.pure (.of_nesting_eq_zero rfl))
  case unary =>
    intro depth layout op operand
    rw [expression]
    exact .after fun value h => .of_nesting_eq_zero (gives_unaryValue layout op operand value h)
  case wrapped =>
    intro depth layout inside trim inner ih
    rw [expression]
    refine (gives_descend depth).bind fun below hbelow value hvalue => ?_
    exact (ih below value hvalue).mono (by omega)
  case template =>
    intro depth layout parts hwrapped
    rw [expression]
    · refine (gives_descend depth).bind fun below _ => ?_
      exact Gives.bind (fun _ _ => trivial) fun text _ => .pure (.of_nesting_eq_zero rfl)
    all_goals exact hwrapped
  case heredoc =>
    intro depth layout indented parts
    rw [expression]
    refine (gives_descend depth).bind fun below _ => ?_
    exact Gives.bind (fun _ _ => trivial) fun text _ => .pure (.of_nesting_eq_zero rfl)
  case array =>
    intro depth layout items ih
    rw [expression]
    refine (gives_descend depth).bind fun below hbelow => ?_
    refine (ih below).bind fun values hvalues => ?_
    rw [hbelow]
    exact .pure (.array hvalues)
  case object =>
    intro depth layout items ih
    rw [expression]
    refine (gives_descend depth).bind fun below hbelow => ?_
    refine (ih below).bind fun entries hentries => ?_
    rw [hbelow]
    exact .pure (.object (Entries.forall_mem_ofList hentries))
  case other =>
    intro depth e hnull hbool hnumber hstring hunary hwrapped htemplate hheredoc harray hobject
    rw [expression]
    · exact .after (.pure (.of_nesting_eq_zero rfl))
    all_goals assumption
  case nil =>
    intro depth
    exact .pure (by simp)
  case cons =>
    intro depth e rest ihe ih
    rw [expressions]
    refine ihe.bind fun value hvalue => ?_
    refine ih.bind fun values hvalues => .pure ?_
    exact List.forall_mem_cons.mpr ⟨hvalue, hvalues⟩
  case nilItems =>
    intro depth
    exact .pure (by simp)
  case consItems =>
    intro depth layout key value rest ihvalue ih
    rw [objectItems]
    refine Gives.bind (fun _ _ => trivial) fun name _ => ?_
    refine ihvalue.bind fun held hheld => ?_
    refine ih.bind fun entries hentries => .pure ?_
    exact List.forall_mem_cons.mpr ⟨hheld, hentries⟩

end Conversion

end HclToJson
