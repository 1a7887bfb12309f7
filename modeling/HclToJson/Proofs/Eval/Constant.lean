import HclToJson.Convert.Basic
import HclToJson.Eval.Evaluate

namespace HclToJson

/-- The name that a key is by itself: an identifier, or a string without interpolations. -/
def Key.name? : Key → Option String
  | .ident name => some name
  | .expr (.string _ name) => some name
  | .expr _ => none

namespace Expr

mutual

/-- An expression of literals, operators on literals, arrays, and objects with names as keys. -/
def isConstant : Expr → Bool
  | .null _ | .bool .. | .number .. | .string .. => true
  | .unary _ _ operand => operand.literal?.isSome
  | .array _ items => itemsConstant items
  | .object _ items => entriesConstant items
  | _ => false
  termination_by structural e => e

def itemsConstant : List Expr → Bool
  | [] => true
  | e :: rest => e.isConstant && itemsConstant rest
  termination_by structural items => items

def entriesConstant : List Item → Bool
  | [] => true
  | .mk _ key value :: rest => key.name?.isSome && value.isConstant && entriesConstant rest
  termination_by structural items => items

end

theorem reread_of_literal {e : Expr} {literal : Static} (h : e.literal? = some literal)
    (depth : Nat) : e.reread depth = e := by
  cases depth with
  | zero => rfl
  | succ depth =>
      cases e with
      | null | bool | number | string => rfl
      | _ => cases h

theorem itemsConstant_iff {items : List Expr} :
    itemsConstant items = true ↔ ∀ e ∈ items, e.isConstant = true := by
  induction items with
  | nil => simp [itemsConstant]
  | cons e rest ih => simp [itemsConstant, ih]

theorem entriesConstant_iff {items : List Item} :
    entriesConstant items = true ↔ ∀ layout key value, Item.mk layout key value ∈ items →
      key.name?.isSome = true ∧ value.isConstant = true := by
  induction items with
  | nil => simp [entriesConstant]
  | cons item rest ih =>
      obtain ⟨layout, key, value⟩ := item
      rw [entriesConstant, Bool.and_eq_true, Bool.and_eq_true, ih]
      constructor
      · rintro ⟨hitem, hrest⟩ layout' key' value' hmem
        rcases List.mem_cons.mp hmem with heq | hmem
        · cases heq
          exact hitem
        · exact hrest layout' key' value' hmem
      · intro h
        refine ⟨h layout key value List.mem_cons_self, fun layout' key' value' hmem => ?_⟩
        exact h layout' key' value' (List.mem_cons_of_mem _ hmem)

/-- A constant has no templates that would be read again. -/
theorem reread_of_isConstant (depth : Nat) {e : Expr} (h : e.isConstant = true) :
    e.reread depth = e := by
  induction depth generalizing e with
  | zero => rfl
  | succ depth ih =>
      cases e with
      | null | bool | number | string => rfl
      | unary layout op operand =>
          obtain ⟨literal, hliteral⟩ := Option.isSome_iff_exists.mp h
          rw [reread, reread_of_literal hliteral]
      | array layout items =>
          rw [isConstant, itemsConstant_iff] at h
          rw [reread, List.map_congr_left fun e hmem => ih (h e hmem), List.map_id']
      | object layout items =>
          rw [isConstant, entriesConstant_iff] at h
          have hitems : ∀ item ∈ items, item.mapExprs (reread depth) = item := by
            rintro ⟨inside, key, value⟩ hmem
            obtain ⟨hkey, hvalue⟩ := h inside key value hmem
            cases key with
            | ident name => rw [Item.mapExprs, ih hvalue]
            | expr key =>
                cases key with
                | string place name => rw [Item.mapExprs, ih hvalue, reread_of_literal rfl]
                | _ => cases hkey
          rw [reread, List.map_congr_left hitems, List.map_id']
      | _ => cases h

end Expr

namespace Eval

variable {scope : Scope} {around : Option Expr} {context : Expr}

theorem evaluate_of_isConstant {e : Expr} (h : e.isConstant = true) :
    evaluate e = (operands [] none e).evaluate e := by
  rw [evaluate, Expr.evaluable, Expr.reread_of_isConstant _ h]

theorem operands_literal {e : Expr} {literal : Static} (h : e.literal? = some literal) :
    (operands scope around e).evaluate context = .ok literal := by
  cases e with
  | null | bool | number | string =>
      cases h
      rfl
  | _ => cases h

theorem operands_unary {layout : Layout} {op : UnaryOp} {operand : Expr} {literal : Static}
    (h : operand.literal? = some literal) :
    (operands scope around (.unary layout op operand)).evaluate context =
      (applyUnary op literal).mapError (.error · (around.getD (.unary layout op operand))) := by
  change ((operands scope (some (.unary layout op operand)) operand).evaluate
    (.unary layout op operand) >>= _) = _
  rw [operands_literal h]
  rfl

theorem operands_array {layout : Layout} {items : List Expr} :
    (operands scope around (.array layout items)).evaluate context =
      itemValues scope (.array layout items) items >>= fun values => pure (.array values) := rfl

theorem operands_object {layout : Layout} {items : List Item} :
    (operands scope around (.object layout items)).evaluate context =
      entryValues scope (.object layout items) items [] >>= fun entries =>
        pure (.object entries) := rfl

theorem keyValue_of_name? {key : Key} {name : String} (h : key.name? = some name) :
    keyValue scope context key = .ok name := by
  cases key with
  | ident other =>
      cases h
      rfl
  | expr e =>
      cases e with
      | string layout other =>
          cases h
          rfl
      | _ => cases h

end Eval

end HclToJson
