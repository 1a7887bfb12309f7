import HclToJson.Proofs.Command.Arguments
import HclToJson.Proofs.Document.Isolation
import HclToJson.Proofs.Json.Unspaced

namespace HclToJson

namespace Exchange

section Parse

variable {text : String} {document : Document} {options : Options}

theorem convertWith_of_parse (h : Document.parse? text = some document) :
    convertWith text options =
      match document.convert options with
      | .ok object => .ok (Json.compact (.object object))
      | .error error => .error (.conversion error) := by
  rw [convertWith, parse_of_parse h]
  rfl

theorem convertWith_of_parse_eq_none (h : Document.parse? text = none) :
    convertWith text options = .error .invalidSyntax := by
  rw [convertWith, parse_of_parse_eq_none h]
  rfl

theorem validate_eq_ok_iff :
    validate text = .ok () ↔ ∃ document, Document.parse? text = some document := by
  cases h : Document.parse? text with
  | none => simp [validate, parse_of_parse_eq_none h, discard, Functor.mapConst, Except.map]
  | some document => simp [validate, parse_of_parse h, discard, Functor.mapConst, Except.map]

end Parse

end Exchange

namespace Command

/-- A command with another file, or with none. -/
def reading (file : Option String) : Command → Command
  | convert _ format options => convert file format options
  | attributes _ format => attributes file format
  | validate _ => validate file

/-- What is reported of a text that is no document. -/
def syntaxReport (file : Option String) : Report :=
  match file with
  | some _ => .failure ["Unable to parse hcl file", syntaxMessage]
  | none => .failure [syntaxMessage]

/-- A report of a conversion that says what an answer says. -/
structure ConvertAgrees (report : Report) (answer : Except Exchange.Error String) : Prop where
  exitCode : report.exitCode = 0 ↔ ∃ json, answer = .ok json
  json : ∀ json, answer = .ok json → Json.unspaced report.stdout = json
  failure : ∀ error, answer = .error error → report.exitCode = 1 ∧ report.stdout = ""

/-- A report on attributes that says what an answer says. -/
structure AttributesAgree (report : Report) (answer : Exchange.AttributesJson) : Prop where
  printed : report.stdout = "" ↔ answer.json = none
  json : ∀ json, answer.json = some json → Json.unspaced report.stdout = json
  exitCode : report.exitCode = 0 ↔ answer.error = none

/-- Reports that may differ in their messages. -/
structure Alike (report other : Report) : Prop where
  exitCode : report.exitCode = other.exitCode
  stdout : report.stdout = other.stdout

section Load

variable {text : String} {document : Document} {file : Option String} {format : Format}
  {options : Options}

theorem load_of_parse (h : Document.parse? text = some document) :
    load file (.ok text) = .ok document := by
  cases file <;> simp only [load, h] <;> rfl

theorem exists_load_of_parse_eq_none (h : Document.parse? text = none) (file : Option String) :
    ∃ messages, load file (.ok text) = .error messages ∧
      Report.failure messages = syntaxReport file := by
  cases file with
  | none => exact ⟨_, by simp only [load, h]; rfl, rfl⟩
  | some name => exact ⟨_, by simp only [load, h]; rfl, rfl⟩

theorem runConvert_of_parse (h : Document.parse? text = some document) :
    run (.ok text) (.convert file format options) =
      match document.convert options with
      | .ok object => .success (output format object)
      | .error error => .failure [error.message] := by
  cases hresult : document.convert options with
  | ok object => simp only [run, runConvert, load_of_parse h, hresult]
  | error error => simp only [run, runConvert, load_of_parse h, hresult]

theorem runConvert_of_parse_eq_none (h : Document.parse? text = none) :
    run (.ok text) (.convert file format options) = syntaxReport file := by
  obtain ⟨messages, hload, hreport⟩ := exists_load_of_parse_eq_none h file
  simp only [run, runConvert, hload, hreport]

theorem runAttributes_of_parse (h : Document.parse? text = some document) :
    run (.ok text) (.attributes file format) =
      match document.convertAttributes {} with
      | .error fault => { Report.failure [fault.message] with exitCode := 101 }
      | .ok (object, issues) =>
          if issues.isEmpty then .success (output format object)
          else
            let messages := issues.map (·.message) ++ [s!"{issues.length} attribute(s) skipped"]
            { Report.failure messages with stdout := output format object } := by
  cases hresult : document.convertAttributes {} with
  | ok result => simp only [run, runAttributes, load_of_parse h, hresult]
  | error fault => simp only [run, runAttributes, load_of_parse h, hresult]

theorem runAttributes_of_parse_eq_none (h : Document.parse? text = none) :
    run (.ok text) (.attributes file format) = syntaxReport file := by
  obtain ⟨messages, hload, hreport⟩ := exists_load_of_parse_eq_none h file
  simp only [run, runAttributes, hload, hreport]

end Load

section Agreement

variable (text : String) (file : Option String)

theorem unspaced_output (object : Object) :
    Json.unspaced (output .json object) = Json.compact (.object object) :=
  Json.unspaced_pretty (.object object)

theorem output_ne_empty (object : Object) : output .json object ≠ "" := by
  intro hempty
  have hchars := congrArg String.toList hempty
  rw [output, String.toList_append] at hchars
  exact absurd hchars (by simp)

theorem syntaxReport_exitCode (file : Option String) : (syntaxReport file).exitCode = 1 := by
  cases file <;> rfl

theorem syntaxReport_stdout (file : Option String) : (syntaxReport file).stdout = "" := by
  cases file <;> rfl

theorem convert_agrees (options : Options) :
    ConvertAgrees (run (.ok text) (.convert file .json options))
      (Exchange.convertWith text options) := by
  cases hparse : Document.parse? text with
  | none =>
      rw [runConvert_of_parse_eq_none hparse, Exchange.convertWith_of_parse_eq_none hparse]
      refine ⟨?_, nofun, ?_⟩
      · simp [syntaxReport_exitCode]
      · exact fun _ _ => ⟨syntaxReport_exitCode file, syntaxReport_stdout file⟩
  | some document =>
      rw [runConvert_of_parse hparse, Exchange.convertWith_of_parse hparse]
      cases document.convert options with
      | ok object =>
          refine ⟨?_, ?_, nofun⟩
          · exact ⟨fun _ => ⟨_, rfl⟩, fun _ => rfl⟩
          · rintro json hjson
            rw [← Except.ok.inj hjson]
            exact unspaced_output object
      | error error =>
          refine ⟨?_, nofun, ?_⟩
          · simp [Report.failure]
          · exact fun _ _ => ⟨rfl, rfl⟩

theorem attributes_agree :
    AttributesAgree (run (.ok text) (.attributes file .json))
      (Exchange.convertAttributes text) := by
  cases hparse : Document.parse? text with
  | none =>
      rw [runAttributes_of_parse_eq_none hparse, Exchange.convertAttributes_of_parse_eq_none hparse]
      refine ⟨?_, nofun, ?_⟩
      · simp [syntaxReport_stdout]
      · simp [syntaxReport_exitCode]
  | some document =>
      rw [runAttributes_of_parse hparse, Exchange.convertAttributes_of_parse hparse]
      cases document.convertAttributes {} with
      | error fault =>
          refine ⟨?_, nofun, ?_⟩
          · simp [Report.failure]
          · simp
      | ok result =>
          obtain ⟨object, issues⟩ := result
          have hprinted : output .json object = "" ↔ some (Json.compact (.object object)) = none :=
            ⟨fun hempty => absurd hempty (output_ne_empty object), nofun⟩
          have hjson : ∀ json, some (Json.compact (.object object)) = some json →
              Json.unspaced (output .json object) = json := by
            intro json heq
            rw [← Option.some.inj heq]
            exact unspaced_output object
          cases issues with
          | nil => exact ⟨hprinted, hjson, ⟨fun _ => rfl, fun _ => rfl⟩⟩
          | cons issue others => exact ⟨hprinted, hjson, ⟨nofun, nofun⟩⟩

theorem validate_agrees :
    (run (.ok text) (.validate file)).exitCode = 0 ↔ Exchange.validate text = .ok () := by
  simp only [run, runValidate]
  cases Exchange.validate text with
  | ok => exact ⟨fun _ => rfl, fun _ => rfl⟩
  | error error => exact ⟨nofun, nofun⟩

theorem validate_iff_convertWith (options : Options) :
    Exchange.validate text = .ok () ↔
      Exchange.convertWith text options ≠ .error .invalidSyntax := by
  rw [Exchange.validate_eq_ok_iff]
  cases hparse : Document.parse? text with
  | none => simp [Exchange.convertWith_of_parse_eq_none hparse]
  | some document =>
      rw [Exchange.convertWith_of_parse hparse]
      cases document.convert options with
      | ok object => simp
      | error error => simp

theorem head?_append {front : String} {c : Char} (h : front.toList.head? = some c)
    (back : String) : (front ++ back).toList.head? = some c := by
  rw [String.toList_append, List.head?_append, h]
  rfl

/-- The messages for what does not convert start unlike those for what does not parse. -/
theorem head_message (error : ConvertError) :
    error.message.toList.head? = some 'u' ∨ error.message.toList.head? = some 'm' := by
  cases error with
  | mergeConflict path => exact .inl (head?_append rfl _)
  | evaluation text cause context =>
      exact .inl (head?_append (head?_append (head?_append rfl _) _) _)
  | depthExceeded limit => exact .inr (head?_append (head?_append rfl _) _)

theorem head?_failure {message : String} {c : Char} (h : message.toList.head? = some c)
    (others : List String) : (Report.failure (message :: others)).stderr.toList.head? = some c := by
  rw [Report.failure, List.map_cons, String.join_cons]
  exact head?_append (head?_append h "\n") _

theorem failure_ne_syntaxReport (error : ConvertError) :
    Report.failure [error.message] ≠ syntaxReport file := by
  have hsyntax : (syntaxReport file).stderr.toList.head? = some '-' ∨
      (syntaxReport file).stderr.toList.head? = some 'U' := by
    cases file with
    | none => exact .inl (head?_failure rfl [])
    | some name => exact .inr (head?_failure rfl [syntaxMessage])
  intro h
  rw [← h] at hsyntax
  rcases head_message error with hhead | hhead
  · rw [head?_failure hhead] at hsyntax
    exact absurd hsyntax (by decide)
  · rw [head?_failure hhead] at hsyntax
    exact absurd hsyntax (by decide)

theorem validate_iff_runConvert (options : Options) :
    Exchange.validate text = .ok () ↔
      run (.ok text) (.convert file .json options) ≠ syntaxReport file := by
  rw [Exchange.validate_eq_ok_iff]
  cases hparse : Document.parse? text with
  | none => simp [runConvert_of_parse_eq_none hparse]
  | some document =>
      rw [runConvert_of_parse hparse]
      refine iff_of_true ⟨document, rfl⟩ ?_
      cases document.convert options with
      | ok object =>
          intro h
          have hcode := congrArg Report.exitCode h
          rw [syntaxReport_exitCode] at hcode
          cases hcode
      | error error => exact failure_ne_syntaxReport file error

theorem run_reading (command : Command) :
    Alike (run (.ok text) (command.reading file)) (run (.ok text) (command.reading none)) := by
  have hsyntax : Alike (syntaxReport file) (syntaxReport none) := by
    constructor
    · rw [syntaxReport_exitCode, syntaxReport_exitCode]
    · rw [syntaxReport_stdout, syntaxReport_stdout]
  cases command with
  | convert _ format options =>
      simp only [reading]
      cases hparse : Document.parse? text with
      | none =>
          rw [runConvert_of_parse_eq_none hparse, runConvert_of_parse_eq_none hparse]
          exact hsyntax
      | some document =>
          rw [runConvert_of_parse hparse, runConvert_of_parse hparse]
          exact ⟨rfl, rfl⟩
  | attributes _ format =>
      simp only [reading]
      cases hparse : Document.parse? text with
      | none =>
          rw [runAttributes_of_parse_eq_none hparse, runAttributes_of_parse_eq_none hparse]
          exact hsyntax
      | some document =>
          rw [runAttributes_of_parse hparse, runAttributes_of_parse hparse]
          exact ⟨rfl, rfl⟩
  | validate _ => exact ⟨rfl, rfl⟩

/-- On every text and with all options the commands agree with the exchange of strings, whether the
text is in a file or comes from the standard input. The program gives the report of the command that
its arguments are read as, and there are arguments for each command whose file has a name and whose
limit is a machine word. -/
theorem run_agrees (options : Options) :
    ConvertAgrees (run (.ok text) (.convert file .json options))
      (Exchange.convertWith text options) ∧
    AttributesAgree (run (.ok text) (.attributes file .json)) (Exchange.convertAttributes text) ∧
    ((run (.ok text) (.validate file)).exitCode = 0 ↔ Exchange.validate text = .ok ()) ∧
    (Exchange.validate text = .ok () ↔
      Exchange.convertWith text options ≠ .error .invalidSyntax) ∧
    (Exchange.validate text = .ok () ↔
      run (.ok text) (.convert file .json options) ≠ syntaxReport file) ∧
    (∀ command : Command,
      Alike (run (.ok text) (command.reading file)) (run (.ok text) (command.reading none))) ∧
    (∀ arguments command, ofArguments arguments = .ok command →
      call (fun _ => (pure (.ok text) : Id Input)) arguments = run (.ok text) command) ∧
    ∀ command : Command, command.Askable → ofArguments command.arguments = .ok command :=
  ⟨convert_agrees text file options, attributes_agree text file, validate_agrees text file,
    validate_iff_convertWith text options, validate_iff_runConvert text file options,
    run_reading text file, fun _ _ harguments => call_of_ofArguments harguments _,
    fun _ => ofArguments_arguments⟩

end Agreement

end Command

end HclToJson
