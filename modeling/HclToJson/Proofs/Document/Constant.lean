import HclToJson.Proofs.Convert.Literal
import HclToJson.Proofs.Document.Outcomes
import HclToJson.Proofs.Eval.Constant

namespace HclToJson

namespace Conversion

open Eval Static HclToJson.Expr

variable {c : Conversion} {depth : Nat}

theorem toOption_bind {ε : Type} (x : Except ε α) (f : α → Except ε β) :
    (x >>= f).toOption = x.toOption.bind fun a => (f a).toOption := by
  cases x <;> rfl

theorem toOption_map {ε : Type} (x : Except ε α) (f : α → β) :
    (x >>= fun a => pure (f a)).toOption = x.toOption.map f := by
  cases x <;> rfl

theorem spells_of_name? {key : Key} {name : String} (h : key.name? = some name) :
    key.Spells name := by
  cases key with
  | ident other =>
      cases h
      exact .ident name
  | expr e =>
      cases e with
      | string layout other =>
          cases h
          exact .string .refl
      | _ => cases h

/-- With levels enough, a constant has a value in the one and in the other way, and the same one, or
has none in either. -/
theorem toOption_values (scope : Scope) :
    (∀ (depth : Nat) e, isConstant e = true → depth + e.levels ≤ c.options.maxDepth →
      ∀ around context, (c.expression depth e).toOption =
        ((operands scope around e).evaluate context).toOption.map toValue) ∧
    (∀ (depth : Nat) items, entriesConstant items = true →
      depth + entriesLevels items ≤ c.options.maxDepth → ∀ context given,
      (c.objectItems depth items).toOption.map
          (fun entries => Entries.ofList (entriesToValues given ++ entries)) =
        (entryValues scope context items (Entries.ofList given)).toOption.map entriesToValues) ∧
    (∀ (depth : Nat) items, itemsConstant items = true → depth + itemsLevels items ≤ c.options.maxDepth →
      ∀ context, (c.expressions depth items).toOption =
        (itemValues scope context items).toOption.map itemsToValues) := by
  refine expression.mutual_induct _ _ _ ?null ?bool ?number ?string ?unary ?wrapped ?template
    ?heredoc ?array ?object ?other ?nil ?cons ?nilItems ?consItems
  case null =>
    intro depth layout _ hlevels around context
    rw [expression_of_literal rfl hlevels]
    rfl
  case bool =>
    intro depth layout value _ hlevels around context
    rw [expression_of_literal rfl hlevels]
    rfl
  case number =>
    intro depth layout value _ hlevels around context
    rw [expression_of_literal rfl hlevels]
    rfl
  case string =>
    intro depth layout value _ hlevels around context
    rw [expression_of_literal rfl hlevels]
    rfl
  case unary =>
    intro depth layout op operand hconstant hlevels around context
    obtain ⟨literal, hliteral⟩ := Option.isSome_iff_exists.mp hconstant
    rw [expression, discard_bind, descend_of_lt hlevels, ok_bind, operands_unary hliteral]
    simp only [unaryValue, hliteral]
    cases applyUnary op literal <;> rfl
  case wrapped =>
    intro depth layout inside trim inner ih hconstant
    cases hconstant
  case template =>
    intro depth layout parts hwrapped hconstant
    cases hconstant
  case heredoc =>
    intro depth layout indented parts hconstant
    cases hconstant
  case array =>
    intro depth layout items ih hconstant hlevels around context
    rw [levels] at hlevels
    rw [expression, descend_of_lt (by omega), ok_bind, operands_array, toOption_map, toOption_map,
      ih (depth + 1) hconstant (by omega) (.array layout items), Option.map_map, Option.map_map]
    rfl
  case object =>
    intro depth layout items ih hconstant hlevels around context
    rw [levels] at hlevels
    have hitems := ih (depth + 1) hconstant (by omega) (.object layout items) []
    rw [expression, descend_of_lt (by omega), ok_bind, operands_object, toOption_map,
      toOption_map, Option.map_map]
    have hobjects := congrArg (Option.map Value.object) hitems
    rw [Option.map_map, Option.map_map] at hobjects
    exact hobjects
  case other =>
    intro depth e hnull hbool hnumber hstring hunary hwrapped htemplate hheredoc harray hobject
      hconstant
    rw [isConstant] at hconstant
    · cases hconstant
    all_goals assumption
  case nil =>
    intro depth _ _ context
    rfl
  case cons =>
    intro depth e rest ihe ih hconstant hlevels context
    rw [itemsConstant, Bool.and_eq_true] at hconstant
    rw [itemsLevels] at hlevels
    rw [expressions, itemValues, toOption_bind, toOption_bind,
      ihe hconstant.1 (by omega) (some context) context]
    cases (operands scope (some context) e).evaluate context with
    | error failure => rfl
    | ok value =>
        change (c.expressions depth rest >>= fun values =>
            pure (value.toValue :: values)).toOption =
          (itemValues scope context rest >>= fun values => pure (value :: values)).toOption.map
            itemsToValues
        rw [toOption_map, toOption_map, ih hconstant.2 (by omega) context, Option.map_map,
          Option.map_map]
        rfl
  case nilItems =>
    intro depth _ _ context given
    change some (Entries.ofList (entriesToValues given ++ [])) =
      some (entriesToValues (Entries.ofList given))
    rw [List.append_nil, entriesToValues_ofList]
  case consItems =>
    intro depth layout key value rest ihvalue ih hconstant hlevels context given
    rw [entriesConstant, Bool.and_eq_true, Bool.and_eq_true] at hconstant
    obtain ⟨⟨hkey, hvalue⟩, hrest⟩ := hconstant
    obtain ⟨name, hname⟩ := Option.isSome_iff_exists.mp hkey
    rw [entriesLevels] at hlevels
    rw [objectItems, entryValues, objectKey_of_spells (spells_of_name? hname) (by omega),
      keyValue_of_name? hname, ok_bind, toOption_bind,
      ihvalue hvalue (by omega) (some context) context]
    change _ = ((operands scope (some context) value).evaluate context >>= fun held =>
      entryValues scope context rest _).toOption.map entriesToValues
    rw [toOption_bind]
    cases (operands scope (some context) value).evaluate context with
    | error failure => rfl
    | ok held =>
        have hitems := ih hrest (by omega) context (given ++ [(name, held)])
        rw [Entries.ofList_concat, entriesToValues_append] at hitems
        change (c.objectItems depth rest >>= fun entries =>
          pure ((name, held.toValue) :: entries)).toOption.map _ = _
        rw [toOption_map, Option.map_map]
        refine Eq.trans ?_ hitems
        simp only [Function.comp_def, List.append_assoc]
        rfl

theorem toOption_expression {e : Expr} (hconstant : e.isConstant = true)
    (hlevels : depth + e.levels ≤ c.options.maxDepth) :
    (c.expression depth e).toOption = (evaluate e).toOption.map toValue := by
  rw [evaluate_of_isConstant hconstant]
  exact (toOption_values []).1 depth e hconstant hlevels none e

theorem expression_of_evaluate {e : Expr} {value : Static} (hconstant : e.isConstant = true)
    (hvalue : evaluate e = .ok value) (hlevels : depth + e.levels ≤ c.options.maxDepth) :
    c.expression depth e = .ok value.toValue := by
  have hoption := toOption_expression hconstant hlevels
  rw [hvalue] at hoption
  cases hrun : c.expression depth e with
  | ok converted =>
      rw [hrun] at hoption
      exact congrArg Except.ok (Option.some.inj hoption)
  | error error =>
      rw [hrun] at hoption
      cases hoption

/-- The value of a constant needs the levels of the constant, and nothing else. -/
theorem exactly_of_evaluate {e : Expr} {value : Static} (hconstant : e.isConstant = true)
    (hvalue : evaluate e = .ok value) :
    Exactly e.levels (fun limit depth => (c.limited limit).expression depth e) value.toValue := by
  have henough : 0 + e.levels ≤ (c.limited e.levels).options.maxDepth :=
    Nat.le_of_eq (Nat.zero_add e.levels)
  exact ((Settled.law c).values.1 0 e).exactly (expression_of_evaluate hconstant hvalue henough)

/-- A constant that is evaluated to nothing is converted to nothing, whatever the limit. -/
theorem exists_error_of_evaluate {e : Expr} {failure : Failure} (hconstant : e.isConstant = true)
    (hfailure : evaluate e = .error failure) : ∃ error, c.expression depth e = .error error := by
  cases hrun : c.expression depth e with
  | error error => exact ⟨error, rfl⟩
  | ok value =>
      -- It would have this value with the levels that it needs, too.
      have hlimited : (c.limited c.options.maxDepth).expression depth e = .ok value := hrun
      have hexactly := ((Settled.law c).values.1 0 e).exactly hlimited
      have hvalue : (c.limited e.levels).expression 0 e = .ok value := by
        simpa using hexactly.eq_ite (Nat.zero_le e.levels)
      have henough : 0 + e.levels ≤ (c.limited e.levels).options.maxDepth :=
        Nat.le_of_eq (Nat.zero_add e.levels)
      have hoption := toOption_expression hconstant henough
      rw [hvalue, hfailure] at hoption
      cases hoption

end Conversion

namespace Document

open Body Outcome Eval Conversion

variable {c : Conversion} {structures : Body} {outcomes : List Outcome} {key : String} {e : Expr}

theorem outcome_attribute_of_ok {value : Static} (hvalue : evaluate e = .ok value) :
    outcome c (.attribute key e) = .ok (match c.expression 0 e with
      | .ok value => .entry key value
      | .error error => .issue (.conversion key error)) := by
  rw [outcome, hvalue]
  cases c.expression 0 e <;> rfl

theorem outcome_attribute_of_error {cause : Cause} {context : Expr}
    (herror : evaluate e = .error (.error cause context)) :
    outcome c (.attribute key e) = .ok (.issue (.evaluation key cause context)) := by
  rw [outcome, herror]
  rfl

/-- What has become of an attribute can be told from the entries and the issues that there are. -/
theorem OutcomesOf.attribute {source : Bytes} {options : Options} {o : Outcome}
    (hnames : (attributeNames structures).Nodup)
    (h : OutcomesOf ⟨source, options⟩ structures outcomes)
    (hmem : Structure.attribute key e ∈ structures)
    (ho : outcome ⟨source, options⟩ (.attribute key e) = .ok o) :
    (∀ value, Entries.get? (entries outcomes) key = some value ↔ o = .entry key value) ∧
      ∀ i : Issue, i.subject = .key key → (i ∈ issues outcomes ↔ o = .issue i) := by
  obtain ⟨front, back, rfl⟩ := List.append_of_mem hmem
  have hsingle := convertAttributes_singleton ho
  have hissues : ∀ i : Issue, i.subject = .key key →
      (i ∈ issues outcomes ↔ i ∈ (issues outcomes).filter (·.subject = .key key)) := by
    intro i hi
    simp [hi]
  rcases h.keyed hnames with ⟨value, hconvert, hget, hfilter⟩ | ⟨issue, hconvert, hkeys, hfilter⟩
  · rw [hsingle] at hconvert
    cases o with
    | issue i => cases hconvert
    | entry name converted =>
        cases hconvert
        refine ⟨fun other => by simp [hget], fun i hi => ?_⟩
        rw [hissues i hi, hfilter]
        simp
  · rw [hsingle] at hconvert
    cases o with
    | entry name converted => cases hconvert
    | issue i =>
        cases hconvert
        refine ⟨fun other => ?_, fun other hother => ?_⟩
        · rw [Entries.get?_eq_none_iff.mpr hkeys]
          simp
        · rw [hissues other hother, hfilter, List.mem_singleton]
          simp [eq_comm]

/-- The entry or the issue of a root attribute follows from what it is evaluated to and from the
levels that it needs. -/
structure FollowsEvaluation (options : Options) (key : String) (e : Expr) (object : Object)
    (issues : List Issue) : Prop where
  value : ∀ value, Entries.get? object key = some value ↔
    ∃ checked, evaluate e = .ok checked ∧ e.levels ≤ options.maxDepth ∧ value = checked.toValue
  evaluation : ∀ cause context,
    Issue.evaluation key cause context ∈ issues ↔ evaluate e = .error (.error cause context)
  conversion : ∀ error, Issue.conversion key error ∈ issues ↔
    (∃ checked, evaluate e = .ok checked) ∧ options.maxDepth < e.levels ∧
      error = .depthExceeded options.maxDepth

theorem follows_of_error {source : Bytes} {options : Options} {cause : Cause} {context : Expr}
    (hnames : (attributeNames structures).Nodup)
    (h : OutcomesOf ⟨source, options⟩ structures outcomes)
    (hmem : Structure.attribute key e ∈ structures)
    (herror : evaluate e = .error (.error cause context)) :
    FollowsEvaluation options key e (entries outcomes) (issues outcomes) := by
  obtain ⟨hget, hissue⟩ := h.attribute hnames hmem (outcome_attribute_of_error herror)
  constructor
  case value => simp [hget, herror]
  case evaluation =>
    intro other place
    rw [hissue _ rfl, herror]
    simp
  case conversion =>
    intro error
    rw [hissue _ rfl, herror]
    simp

theorem follows_of_ok {source : Bytes} {options : Options} {checked : Static}
    (hnames : (attributeNames structures).Nodup)
    (h : OutcomesOf ⟨source, options⟩ structures outcomes)
    (hmem : Structure.attribute key e ∈ structures) (hconstant : e.isConstant = true)
    (hchecked : evaluate e = .ok checked) :
    FollowsEvaluation options key e (entries outcomes) (issues outcomes) := by
  have hexpression : Conversion.expression ⟨source, options⟩ 0 e =
      if 0 + e.levels ≤ options.maxDepth then .ok checked.toValue
      else .error (.depthExceeded options.maxDepth) :=
    (exactly_of_evaluate (c := ⟨source, options⟩) hconstant hchecked).eq_ite (Nat.zero_le _)
  obtain ⟨hget, hissue⟩ := h.attribute hnames hmem (outcome_attribute_of_ok hchecked)
  rw [hexpression, Nat.zero_add] at hget hissue
  constructor
  case value =>
    intro value
    rw [hget, hchecked]
    split_ifs with hlevels <;> simp [hlevels, eq_comm]
  case evaluation =>
    intro cause context
    rw [hissue _ rfl, hchecked]
    split_ifs <;> simp
  case conversion =>
    intro error
    rw [hissue _ rfl, hchecked, ← Nat.not_le]
    split_ifs with hlevels <;> simp [hlevels, eq_comm]

/-- A constant is converted to the value that it is evaluated to, and fails where its evaluation
does. So the conversion of the root attributes gives what it has checked, or tells that the levels
are too few. -/
theorem constant_converts_as_evaluated {e : Expr} (hconstant : e.isConstant = true) :
    (∀ (c : Conversion) (depth : Nat) value, evaluate e = .ok value →
      depth + e.levels ≤ c.options.maxDepth → c.expression depth e = .ok value.toValue) ∧
    (∀ (c : Conversion) (depth : Nat) failure, evaluate e = .error failure →
      ∃ error, c.expression depth e = .error error) ∧
    ∀ source options structures key, (attributeNames structures).Nodup → Faultless structures →
      Structure.attribute key e ∈ structures →
      ∃ object issues, convertAttributes ⟨source, structures⟩ options = .ok (object, issues) ∧
        FollowsEvaluation options key e object issues := by
  refine ⟨fun c depth value hvalue hlevels => expression_of_evaluate hconstant hvalue hlevels,
    fun c depth failure hfailure => exists_error_of_evaluate hconstant hfailure, ?_⟩
  intro source options structures key hnames hfaultless hmem
  obtain ⟨outcomes, h⟩ := exists_outcomes (c := ⟨source, options⟩) hfaultless
  refine ⟨entries outcomes, issues outcomes, convertAttributes_eq_ok hnames h, ?_⟩
  cases hrun : evaluate e with
  | ok checked => exact follows_of_ok hnames h hmem hconstant hrun
  | error failure =>
      cases failure with
      | fault fault => exact absurd hrun (hfaultless key e hmem fault)
      | error cause context => exact follows_of_error hnames h hmem hrun

/-- `{ x = [-1, !true], "y" = null }` -/
def nestedConstant : Expr :=
  .object .nowhere
    [.mk .nowhere (.ident "x")
      (.array .nowhere [.unary .nowhere .neg (.number .nowhere (.ofInt 1)),
        .unary .nowhere .not (.bool .nowhere true)]),
      .mk .nowhere (.expr (.string .nowhere "y")) (.null .nowhere)]

/-- Three levels are enough for an object of an array of negated literals. -/
theorem constant_converts_as_evaluated_nested : nestedConstant.isConstant = true ∧
    Conversion.expression ⟨[], { maxDepth := 3 }⟩ 0 nestedConstant =
      .ok (.object [("x", .array [.integer (-1), .boolean false]), ("y", .null)]) ∧
    ∃ object issues,
      convertAttributes ⟨[], [.attribute "a" nestedConstant, .block "b" [] []]⟩
        { maxDepth := 2 } = .ok (object, issues) ∧
      Issue.conversion "a" (.depthExceeded 2) ∈ issues := by
  have hconstant : nestedConstant.isConstant = true := by decide
  have hvalue : evaluate nestedConstant = .ok (.object [("x", .array
      [.number (.ofInt (-1)), .bool false]), ("y", .null)]) := by rfl
  have hnames : (attributeNames [.attribute "a" nestedConstant, .block "b" [] []]).Nodup := by
    decide
  have hfaultless : Faultless [.attribute "a" nestedConstant, .block "b" [] []] := by
    decide +kernel
  obtain ⟨hconverts, -, hattributes⟩ := constant_converts_as_evaluated hconstant
  refine ⟨hconstant, hconverts ⟨[], { maxDepth := 3 }⟩ 0 _ hvalue (by decide), ?_⟩
  obtain ⟨object, issues, hconvert, hfollows⟩ :=
    hattributes [] { maxDepth := 2 } _ "a" hnames hfaultless List.mem_cons_self
  exact ⟨object, issues, hconvert,
    (hfollows.conversion _).mpr ⟨⟨_, hvalue⟩, by decide, rfl⟩⟩

end Document

end HclToJson
