import Mathlib.Data.List.Nodup
import HclToJson.Document
import HclToJson.Proofs.Body.Paths
import HclToJson.Proofs.Entries

/-!
What becomes of the structures of a document when its root attributes are converted: one entry or one
issue for each of them, in order, whatever stands before and after it.
-/

namespace HclToJson

/-- The attribute or block that something is about. -/
inductive Subject
  | key (name : String)
  | block (ident : String)
  deriving DecidableEq

def Structure.subject : Structure → Subject
  | .attribute key _ => .key key
  | .block ident .. => .block ident

def Issue.subject : Issue → Subject
  | blockNotAllowed ident => .block ident
  | evaluation key .. | conversion key _ => .key key

def Outcome.subject : Outcome → Subject
  | entry key _ => .key key
  | issue i => i.subject

/-- The identifier of a block. -/
def Subject.block? : Subject → Option String
  | key _ => none
  | block ident => some ident

namespace Body

theorem key_mem_subjects_iff {structures : Body} {key : String} :
    Subject.key key ∈ structures.map Structure.subject ↔ key ∈ attributeNames structures := by
  induction structures with
  | nil => simp [attributeNames]
  | cons item rest ih =>
      rcases item with ⟨name, e⟩ | ⟨ident, labels, inner⟩
      · rw [List.map_cons, List.mem_cons, ih, attributeNames_attribute, List.mem_cons,
          Structure.subject, Subject.key.injEq]
      · simpa [Structure.subject] using ih

/-- No attribute has a value whose evaluation ends in a fault. -/
def Faultless (structures : Body) : Prop :=
  ∀ key e, Structure.attribute key e ∈ structures → ∀ fault, Eval.evaluate e ≠ .error (.fault fault)

theorem Faultless.mono {part structures : Body} (h : Faultless structures)
    (hpart : part ⊆ structures) : Faultless part :=
  fun key e hmem => h key e (hpart hmem)

/-- Whether the value of a structure, if it has one, ends in no fault. -/
def sound : Structure → Bool
  | .attribute _ e =>
      match Eval.evaluate e with
      | .error (.fault _) => false
      | _ => true
  | .block .. => true

theorem sound_attribute_iff {key : String} {e : Expr} :
    sound (.attribute key e) = true ↔ ∀ fault, Eval.evaluate e ≠ .error (.fault fault) := by
  simp only [sound]
  split
  · rename_i fault hfault
    simp [hfault]
  · rename_i hother
    simpa using hother

theorem faultless_iff {structures : Body} : Faultless structures ↔ structures.all sound = true := by
  rw [List.all_eq_true]
  constructor
  · rintro h (⟨key, e⟩ | ⟨ident, labels, inner⟩) hmem
    · exact sound_attribute_iff.mpr (h key e hmem)
    · rfl
  · intro h key e hmem
    exact sound_attribute_iff.mp (h _ hmem)

instance : DecidablePred Faultless := fun _ => decidable_of_iff _ faultless_iff.symm

end Body

namespace Outcome

@[simp] theorem entries_nil : entries [] = [] := rfl

@[simp] theorem issues_nil : issues [] = [] := rfl

@[simp] theorem entries_entry (key : String) (value : Value) (rest : List Outcome) :
    entries (entry key value :: rest) = (key, value) :: entries rest := rfl

@[simp] theorem entries_issue (i : Issue) (rest : List Outcome) :
    entries (issue i :: rest) = entries rest := rfl

@[simp] theorem issues_entry (key : String) (value : Value) (rest : List Outcome) :
    issues (entry key value :: rest) = issues rest := rfl

@[simp] theorem issues_issue (i : Issue) (rest : List Outcome) :
    issues (issue i :: rest) = i :: issues rest := rfl

theorem entries_append (front back : List Outcome) :
    entries (front ++ back) = entries front ++ entries back :=
  List.filterMap_append

theorem issues_append (front back : List Outcome) :
    issues (front ++ back) = issues front ++ issues back :=
  List.filterMap_append

theorem length_entries_add_length_issues (outcomes : List Outcome) :
    (entries outcomes).length + (issues outcomes).length = outcomes.length := by
  induction outcomes with
  | nil => rfl
  | cons outcome rest ih =>
      cases outcome with
      | entry key value =>
          rw [entries_entry, issues_entry, List.length_cons, List.length_cons]
          omega
      | issue i =>
          rw [entries_issue, issues_issue, List.length_cons, List.length_cons]
          omega

theorem issues_sublist (outcomes : List Outcome) :
    ((issues outcomes).map Issue.subject).Sublist (outcomes.map Outcome.subject) := by
  induction outcomes with
  | nil => exact List.Sublist.refl []
  | cons outcome rest ih =>
      cases outcome with
      | entry key value => exact ih.cons _
      | issue i => exact ih.cons_cons i.subject

end Outcome

namespace Document

open Body Outcome

variable {c : Conversion} {structures : Body} {outcomes : List Outcome}

/-- The outcomes of the structures of a body, one for each. -/
abbrev OutcomesOf (c : Conversion) : Body → List Outcome → Prop :=
  List.Forall₂ fun item o => outcome c item = .ok o

theorem outcomes_eq_ok_iff : Document.outcomes c structures = .ok outcomes ↔
    OutcomesOf c structures outcomes := by
  unfold Document.outcomes
  induction structures generalizing outcomes with
  | nil => cases outcomes <;> simp [pure, Except.pure]
  | cons item rest ih =>
      rw [List.mapM_cons]
      cases hitem : outcome c item with
      | error fault => cases outcomes <;> simp [bind, Except.bind, hitem]
      | ok o =>
          cases hrest : rest.mapM (outcome c) with
          | error fault => cases outcomes <;> simp [bind, Except.bind, hitem, ← ih, hrest]
          | ok others =>
              cases outcomes <;> simp [bind, Except.bind, pure, Except.pure, hitem, ← ih, hrest]

theorem outcome_block (ident : String) (labels : List String) (inner : Body) :
    outcome c (.block ident labels inner) = .ok (.issue (.blockNotAllowed ident)) := rfl

theorem subject_outcome {item : Structure} {o : Outcome} (h : outcome c item = .ok o) :
    o.subject = item.subject := by
  rcases item with ⟨key, e⟩ | ⟨ident, labels, inner⟩
  · simp only [outcome] at h
    split at h
    · cases h
    · cases h
      rfl
    · split at h
      · cases h
        rfl
      · cases h
        rfl
  · cases h
    rfl

theorem exists_outcome {item : Structure} (h : Faultless [item]) : ∃ o, outcome c item = .ok o := by
  rcases item with ⟨key, e⟩ | ⟨ident, labels, inner⟩
  · simp only [outcome]
    split
    · rename_i fault hfault
      exact absurd hfault (h key e List.mem_cons_self fault)
    · exact ⟨_, rfl⟩
    · split
      · exact ⟨_, rfl⟩
      · exact ⟨_, rfl⟩
  · exact ⟨_, rfl⟩

theorem exists_outcomes (h : Faultless structures) :
    ∃ outcomes, OutcomesOf c structures outcomes := by
  induction structures with
  | nil => exact ⟨[], List.Forall₂.nil⟩
  | cons item rest ih =>
      obtain ⟨others, hothers⟩ := ih (h.mono (List.subset_cons_self item rest))
      obtain ⟨o, ho⟩ := exists_outcome (c := c) (h.mono (by simp : [item] ⊆ item :: rest))
      exact ⟨o :: others, List.Forall₂.cons ho hothers⟩

namespace OutcomesOf

theorem subjects (h : OutcomesOf c structures outcomes) :
    outcomes.map Outcome.subject = structures.map Structure.subject := by
  induction h with
  | nil => rfl
  | cons ho _ ih => rw [List.map_cons, List.map_cons, subject_outcome ho, ih]

theorem keys_sublist (h : OutcomesOf c structures outcomes) :
    (Entries.keys (entries outcomes)).Sublist (attributeNames structures) := by
  induction h with
  | nil => exact List.Sublist.refl []
  | @cons item o rest others ho _ ih =>
      have hsubject := subject_outcome ho
      rcases item with ⟨key, e⟩ | ⟨ident, labels, inner⟩
      · cases o with
        | entry name value =>
            obtain rfl : name = key := by simpa [Outcome.subject, Structure.subject] using hsubject
            exact ih.cons_cons name
        | issue i => exact ih.cons key
      · cases ho
        exact ih

theorem blocks (h : OutcomesOf c structures outcomes) :
    (issues outcomes).filterMap (·.subject.block?) = structures.filterMap (·.subject.block?) := by
  induction h with
  | nil => rfl
  | @cons item o rest others ho _ ih =>
      have hsubject := subject_outcome ho
      rcases item with ⟨key, e⟩ | ⟨ident, labels, inner⟩
      · cases o with
        | entry name value => exact ih
        | issue i =>
            have hi : i.subject.block? = none := by
              rw [show i.subject = .key key from hsubject]
              rfl
            simp only [issues_issue, List.filterMap_cons, hi]
            exact ih
      · cases ho
        exact congrArg (ident :: ·) ih

/-- An attribute that no other one has the name of is the subject of no outcome but its own. -/
theorem filter_issues (h : OutcomesOf c structures outcomes) {key : String}
    (hkey : key ∉ attributeNames structures) :
    (issues outcomes).filter (·.subject = .key key) = [] := by
  rw [List.filter_eq_nil_iff]
  intro i hi hsubject
  have hmem : Subject.key key ∈ structures.map Structure.subject := by
    rw [← h.subjects]
    apply (issues_sublist outcomes).subset
    exact List.mem_map.mpr ⟨i, hi, by simpa using hsubject⟩
  exact hkey (key_mem_subjects_iff.mp hmem)

end OutcomesOf

theorem convertAttributes_eq_ok {source : Bytes} {options : Options}
    (hnames : (attributeNames structures).Nodup)
    (h : OutcomesOf ⟨source, options⟩ structures outcomes) :
    convertAttributes ⟨source, structures⟩ options = .ok (entries outcomes, issues outcomes) := by
  have hkeys : ((entries outcomes).map (·.1)).Nodup := hnames.sublist h.keys_sublist
  rw [convertAttributes, outcomes_eq_ok_iff.mpr h]
  change Except.ok (Entries.ofList (entries outcomes), issues outcomes) = _
  rw [Entries.ofList_eq_self hkeys]

/-- The entries and the issues of a body account for its structures, each once and in order. -/
structure Accounted (source : Bytes) (options : Options) (structures : Body) (object : Object)
    (issues : List Issue) : Prop where
  /-- Wherever the body is split, what becomes of the front comes before what becomes of the back. -/
  split : ∀ front back, structures = front ++ back →
    ∃ frontObject frontIssues backObject backIssues,
      convertAttributes ⟨source, front⟩ options = .ok (frontObject, frontIssues) ∧
      convertAttributes ⟨source, back⟩ options = .ok (backObject, backIssues) ∧
      object = frontObject ++ backObject ∧ issues = frontIssues ++ backIssues
  /-- An attribute has an entry or an issue, the one that it has alone, and never both. -/
  each : ∀ key e, Structure.attribute key e ∈ structures →
    (∃ value, convertAttributes ⟨source, [.attribute key e]⟩ options = .ok ([(key, value)], []) ∧
      Entries.get? object key = some value ∧
      issues.filter (·.subject = .key key) = []) ∨
    (∃ issue, convertAttributes ⟨source, [.attribute key e]⟩ options = .ok ([], [issue]) ∧
      key ∉ Entries.keys object ∧ issues.filter (·.subject = .key key) = [issue])
  /-- A block has an issue. -/
  blocks : issues.filterMap (·.subject.block?) = structures.filterMap (·.subject.block?)
  /-- All entries are those of attributes. -/
  keys : (Entries.keys object).Sublist (attributeNames structures)
  order : (issues.map Issue.subject).Sublist (structures.map Structure.subject)
  count : object.length + issues.length = structures.length

theorem convertAttributes_singleton {source : Bytes} {options : Options} {item : Structure}
    {o : Outcome} (h : outcome ⟨source, options⟩ item = .ok o) :
    convertAttributes ⟨source, [item]⟩ options = .ok (entries [o], issues [o]) := by
  apply convertAttributes_eq_ok
  · rcases item with ⟨key, e⟩ | ⟨ident, labels, inner⟩
    · exact List.nodup_singleton key
    · exact List.nodup_nil
  · exact List.Forall₂.cons h List.Forall₂.nil

namespace OutcomesOf

theorem exists_append {front back : Body} (h : OutcomesOf c (front ++ back) outcomes) :
    ∃ frontOutcomes backOutcomes, OutcomesOf c front frontOutcomes ∧
      OutcomesOf c back backOutcomes ∧ outcomes = frontOutcomes ++ backOutcomes := by
  induction front generalizing outcomes with
  | nil => exact ⟨[], outcomes, List.Forall₂.nil, h, rfl⟩
  | cons item rest ih =>
      cases h with
      | @cons _ o _ others ho hothers =>
          obtain ⟨frontOutcomes, backOutcomes, hfront, hback, rfl⟩ := ih hothers
          exact ⟨o :: frontOutcomes, backOutcomes, List.Forall₂.cons ho hfront, hback, rfl⟩

theorem exists_middle {front back : Body} {item : Structure}
    (h : OutcomesOf c (front ++ item :: back) outcomes) :
    ∃ frontOutcomes o backOutcomes, OutcomesOf c front frontOutcomes ∧ outcome c item = .ok o ∧
      OutcomesOf c back backOutcomes ∧ outcomes = frontOutcomes ++ o :: backOutcomes := by
  obtain ⟨frontOutcomes, rest, hfront, hrest, rfl⟩ := h.exists_append
  cases hrest with
  | cons ho hback => exact ⟨frontOutcomes, _, _, hfront, ho, hback, rfl⟩

theorem split {source : Bytes} {options : Options} {front back : Body}
    (hnames : (attributeNames (front ++ back)).Nodup)
    (h : OutcomesOf ⟨source, options⟩ (front ++ back) outcomes) :
    ∃ frontObject frontIssues backObject backIssues,
      convertAttributes ⟨source, front⟩ options = .ok (frontObject, frontIssues) ∧
      convertAttributes ⟨source, back⟩ options = .ok (backObject, backIssues) ∧
      entries outcomes = frontObject ++ backObject ∧
      issues outcomes = frontIssues ++ backIssues := by
  obtain ⟨frontOutcomes, backOutcomes, hfront, hback, rfl⟩ := h.exists_append
  rw [attributeNames_append, List.nodup_append] at hnames
  obtain ⟨hfrontNames, hbackNames, -⟩ := hnames
  exact ⟨entries frontOutcomes, issues frontOutcomes, entries backOutcomes, issues backOutcomes,
    convertAttributes_eq_ok hfrontNames hfront, convertAttributes_eq_ok hbackNames hback,
    entries_append .., issues_append ..⟩

theorem keyed {source : Bytes} {options : Options} {front back : Body} {key : String} {e : Expr}
    (hnames : (attributeNames (front ++ .attribute key e :: back)).Nodup)
    (h : OutcomesOf ⟨source, options⟩ (front ++ .attribute key e :: back) outcomes) :
    (∃ value, convertAttributes ⟨source, [.attribute key e]⟩ options = .ok ([(key, value)], []) ∧
      Entries.get? (entries outcomes) key = some value ∧
      (issues outcomes).filter (·.subject = .key key) = []) ∨
    (∃ issue, convertAttributes ⟨source, [.attribute key e]⟩ options = .ok ([], [issue]) ∧
      key ∉ Entries.keys (entries outcomes) ∧
      (issues outcomes).filter (·.subject = .key key) = [issue]) := by
  obtain ⟨frontOutcomes, o, backOutcomes, hfront, ho, hback, rfl⟩ := h.exists_middle
  have hsubject := subject_outcome ho
  have hkeys : ((entries (frontOutcomes ++ o :: backOutcomes)).map (·.1)).Nodup :=
    hnames.sublist h.keys_sublist
  rw [attributeNames_append, attributeNames_attribute, List.nodup_middle, List.nodup_cons,
    List.mem_append, not_or] at hnames
  obtain ⟨⟨hfrontName, hbackName⟩, -⟩ := hnames
  have hfrontKey : key ∉ Entries.keys (entries frontOutcomes) :=
    fun hmem => hfrontName (hfront.keys_sublist.subset hmem)
  have hbackKey : key ∉ Entries.keys (entries backOutcomes) :=
    fun hmem => hbackName (hback.keys_sublist.subset hmem)
  rw [issues_append, List.filter_append, hfront.filter_issues hfrontName, List.nil_append]
  cases o with
  | entry name value =>
      obtain rfl : name = key := Subject.key.inj hsubject
      left
      refine ⟨value, convertAttributes_singleton ho, ?_, ?_⟩
      · rw [← Entries.ofList_eq_self hkeys, entries_append, entries_entry]
        exact Entries.get?_ofList (entries frontOutcomes) (entries backOutcomes) value hbackKey
      · rw [issues_entry, hback.filter_issues hbackName]
  | issue i =>
      have hi : i.subject = .key key := hsubject
      right
      refine ⟨i, convertAttributes_singleton ho, ?_, ?_⟩
      · rw [entries_append, entries_issue, Entries.keys_append, List.mem_append, not_or]
        exact ⟨hfrontKey, hbackKey⟩
      · rw [issues_issue, List.filter_cons_of_pos (by simp [hi]), hback.filter_issues hbackName]

end OutcomesOf

/-- If no evaluation ends in a fault, the root attributes of a document are converted one by one. -/
theorem attributes_accounted (source : Bytes) (options : Options) {structures : Body}
    (hnames : (attributeNames structures).Nodup) (hfaultless : Faultless structures) :
    ∃ object issues, convertAttributes ⟨source, structures⟩ options = .ok (object, issues) ∧
      Accounted source options structures object issues := by
  obtain ⟨outcomes, h⟩ := exists_outcomes (c := ⟨source, options⟩) hfaultless
  refine ⟨entries outcomes, issues outcomes, convertAttributes_eq_ok hnames h, ?_⟩
  constructor
  case split =>
    rintro front back rfl
    exact h.split hnames
  case each =>
    intro key e hmem
    obtain ⟨front, back, rfl⟩ := List.append_of_mem hmem
    exact h.keyed hnames
  case blocks => exact h.blocks
  case keys => exact h.keys_sublist
  case order =>
    rw [← h.subjects]
    exact issues_sublist outcomes
  case count => rw [length_entries_add_length_issues, h.length_eq]

/-- `a = true`, `a {}` and `b = x` -/
def mixed : Body :=
  [.attribute "a" (.bool ⟨none, [], [], []⟩ true), .block "a" [] [],
    .attribute "b" (.var ⟨none, [], [], []⟩ "x")]

/-- An attribute converts, a block of the same name and an attribute without a static value do not. -/
theorem attributes_accounted_mixed : (attributeNames mixed).Nodup ∧ Faultless mixed ∧
    Accounted [] {} mixed [("a", .boolean true)]
      [.blockNotAllowed "a",
        .evaluation "b" (.undefinedVariable "x") (.var ⟨none, [], [], []⟩ "x")] := by
  have hnames : (attributeNames mixed).Nodup := by decide
  have hfaultless : Faultless mixed := by decide +kernel
  obtain ⟨object, issues, hconvert, haccounted⟩ :=
    attributes_accounted [] {} hnames hfaultless
  cases hconvert
  exact ⟨hnames, hfaultless, haccounted⟩

end Document

end HclToJson
