import HclToJson.Exchange
import HclToJson.Proofs.Document.Outcomes
import HclToJson.Proofs.Grammar.Parser

namespace HclToJson

open Body

namespace Grammar

theorem distinct_iff {keys : List String} : distinct keys = true ↔ keys.Nodup := by
  induction keys with
  | nil => simp [distinct]
  | cons key rest ih => simp [distinct, ih]

theorem nodup_attributeNames_of_body {nested : Nested} {depth : Nat} {cursor cursor' : Cursor}
    {structures : Body} (h : body nested depth cursor = .ok (structures, cursor')) :
    (attributeNames structures).Nodup := by
  cases depth with
  | zero => cases h
  | succ depth =>
      rw [body, Parser.bind_eq_ok] at h
      obtain ⟨_, _, -, h⟩ := h
      obtain ⟨_, _, -, h⟩ := Parser.bind_eq_ok.mp h
      obtain ⟨_, _, hdistinct, h⟩ := Parser.bind_eq_ok.mp h
      cases h
      rw [Parser.require_eq] at hdistinct
      split at hdistinct
      · rename_i hkeys
        exact distinct_iff.mp hkeys
      · cases hdistinct

theorem nodup_attributeNames_of_document? {text : Bytes} {structures : Body}
    (h : document? text = some structures) : (attributeNames structures).Nodup := by
  unfold document? Parser.whole? at h
  split at h
  · rename_i value cursor hbody
    split at h
    · cases h
      exact nodup_attributeNames_of_body hbody
    · cases h
  · cases h

end Grammar

namespace Document

theorem nodup_attributeNames {text : String} {document : Document}
    (h : parse? text = some document) : (attributeNames document.body).Nodup := by
  obtain ⟨structures, hbody, rfl⟩ := Option.map_eq_some_iff.mp h
  exact Grammar.nodup_attributeNames_of_document? hbody

/-- A body has outcomes if and only if no evaluation ends in a fault. -/
theorem exists_outcomes_iff {c : Conversion} {structures : Body} :
    (∃ outcomes, OutcomesOf c structures outcomes) ↔ Faultless structures := by
  constructor
  · rintro ⟨outcomes, h⟩ key e hmem fault hfault
    obtain ⟨front, back, rfl⟩ := List.append_of_mem hmem
    obtain ⟨-, o, -, -, ho, -⟩ := h.exists_middle
    simp only [outcome, hfault] at ho
    cases ho
  · exact exists_outcomes

theorem convertAttributes_eq_error_iff (source : Bytes) (options : Options) {structures : Body} :
    (∃ fault, convertAttributes ⟨source, structures⟩ options = .error fault) ↔
      ¬ Faultless structures := by
  rw [← exists_outcomes_iff (c := ⟨source, options⟩)]
  simp only [← outcomes_eq_ok_iff]
  cases houtcomes : Document.outcomes ⟨source, options⟩ structures with
  | error fault => simp [convertAttributes, houtcomes, bind, Except.bind]
  | ok outcomes => simp [convertAttributes, houtcomes, bind, Except.bind, pure, Except.pure]

end Document

namespace Exchange

theorem parse_of_parse {text : String} {document : Document}
    (h : Document.parse? text = some document) : parse text = .ok document := by
  rw [parse, h]
  rfl

theorem parse_of_parse_eq_none {text : String} (h : Document.parse? text = none) :
    parse text = .error .invalidSyntax := by
  rw [parse, h]
  rfl

theorem convertAttributes_of_parse {text : String} {document : Document}
    (h : Document.parse? text = some document) :
    convertAttributes text =
      match document.convertAttributes {} with
      | .error fault => ⟨none, some (.fault fault)⟩
      | .ok (object, issues) =>
          ⟨some (Json.compact (.object object)),
            if issues.isEmpty then none else some (.issues issues)⟩ := by
  unfold convertAttributes
  split
  · rename_i herror
    rw [parse_of_parse h] at herror
    cases herror
  · rename_i hdocument
    rw [parse_of_parse h] at hdocument
    cases hdocument
    rfl

theorem convertAttributes_of_parse_eq_none {text : String} (h : Document.parse? text = none) :
    convertAttributes text = ⟨none, some .invalidSyntax⟩ := by
  rw [convertAttributes, parse_of_parse_eq_none h]

theorem json_eq_none_iff {text : String} : (convertAttributes text).json = none ↔
    Document.parse? text = none ∨
      ∃ document, Document.parse? text = some document ∧ ¬ Faultless document.body := by
  cases hparse : Document.parse? text with
  | none => simp [convertAttributes_of_parse_eq_none hparse]
  | some document =>
      rw [convertAttributes_of_parse hparse]
      simp only [reduceCtorEq, Option.some.injEq, exists_eq_left', false_or,
        ← Document.convertAttributes_eq_error_iff document.source {}]
      cases document.convertAttributes {} with
      | error fault => simp
      | ok result => simp

/-- The JSON of the attributes of a text is missing if and only if the text has no document or an
evaluation ends in a fault. If it is there, it has those attributes that convert alone, as they do
alone, whatever the others are. -/
theorem attributes_isolated (text : String) :
    ((convertAttributes text).json = none ↔
      Document.parse? text = none ∨
        ∃ document, Document.parse? text = some document ∧ ¬ Faultless document.body) ∧
    ∀ document, Document.parse? text = some document → Faultless document.body →
      ∃ object, (convertAttributes text).json = some (Json.compact (.object object)) ∧
        ∀ key e value, Structure.attribute key e ∈ document.body →
          (Entries.get? object key = some value ↔
            Document.convertAttributes ⟨document.source, [.attribute key e]⟩ {} =
              .ok ([(key, value)], [])) := by
  refine ⟨json_eq_none_iff, ?_⟩
  intro document hparse hfaultless
  have hnames := Document.nodup_attributeNames hparse
  obtain ⟨outcomes, h⟩ := Document.exists_outcomes (c := ⟨document.source, {}⟩) hfaultless
  refine ⟨Outcome.entries outcomes, ?_, ?_⟩
  · rw [convertAttributes_of_parse hparse, Document.convertAttributes_eq_ok hnames h]
  · intro key e value hmem
    obtain ⟨front, back, hbody⟩ := List.append_of_mem hmem
    rw [hbody] at hnames h
    rcases h.keyed hnames with ⟨own, halone, hentry, -⟩ | ⟨issue, halone, hentry, -⟩
    · rw [halone, hentry]
      simp
    · rw [halone, Entries.get?_eq_none_iff.mpr hentry]
      simp

theorem attributes_isolated_variable :
    ∃ document, Document.parse? "a = 1\nb = x\n" = some document ∧ Faultless document.body ∧
      ∃ object, (convertAttributes "a = 1\nb = x\n").json = some (Json.compact (.object object)) ∧
        ∀ key e value, Structure.attribute key e ∈ document.body →
          (Entries.get? object key = some value ↔
            Document.convertAttributes ⟨document.source, [.attribute key e]⟩ {} =
              .ok ([(key, value)], [])) := by
  have hparse : (Document.parse? "a = 1\nb = x\n").map (fun document =>
      decide (Faultless document.body)) = some true := by decide +kernel
  obtain ⟨document, hdocument, hfaultless⟩ := Option.map_eq_some_iff.mp hparse
  have hfaultless := of_decide_eq_true hfaultless
  exact ⟨document, hdocument, hfaultless, (attributes_isolated _).2 document hdocument hfaultless⟩

/-- The remainder of an attribute by zero takes the other attribute with it. -/
theorem remainder_takes_all :
    (convertAttributes "a = 1\n").json = some "\x7b\"a\":1\x7d" ∧
      (Document.parse? "a = 1\nb = 1 % 0\n").isSome = true ∧
      (convertAttributes "a = 1\nb = 1 % 0\n").json = none := by
  decide +kernel

end Exchange

end HclToJson
