import HclToJson.Command.Run
import HclToJson.Proofs.Decimal.Text

namespace HclToJson.Command

def formatName : Format → String
  | .json => "json"
  | .yaml => "yaml"

/-- Arguments for a command. The file stands behind `--`, so its name may start with a dash. -/
def arguments : Command → List String
  | convert file format options =>
      "convert" :: ("--output-format=" ++ formatName format) ::
        ("--max-depth=" ++ String.ofList (Decimal.natText options.maxDepth)) ::
        ((if options.keepInterpolation then ["--keep-interpolation"] else []) ++
          "--" :: file.toList)
  | attributes file format =>
      "attributes" :: ("--output-format=" ++ formatName format) :: "--" :: file.toList
  | validate file => "validate" :: "--" :: file.toList

/-- A command that can be asked for: its file has a name, and its limit fits into a machine word. -/
structure Askable (command : Command) : Prop where
  file : ∀ name ∈ command.file, name ≠ ""
  maxDepth : ∀ file format options, command = .convert file format options →
    options.maxDepth < 0x1_0000_0000_0000_0000

theorem natural?_natText {n : Nat} (h : n < 0x1_0000_0000_0000_0000) :
    natural? (Decimal.natText n) = some n := by
  have hplus : ∀ rest, Decimal.natText n ≠ '+' :: rest := by
    intro rest heq
    have hdigit := Decimal.isDigit_natText '+' (heq ▸ List.mem_cons_self)
    exact absurd hdigit (by decide)
  have hdigits : (Decimal.natText n).all Char.isDigit = true :=
    List.all_eq_true.mpr Decimal.isDigit_natText
  have hempty : (Decimal.natText n).isEmpty = false :=
    List.isEmpty_eq_false_iff.mpr (Decimal.natText_ne_nil n)
  simp only [natural?, Decimal.readNat_natText, hdigits, hempty, h, decide_true, Bool.not_false,
    Bool.and_self, ↓reduceIte]

theorem readArgument_maxDepth {accepted : Accepted} {given : Given} {n : Nat}
    (haccepted : accepted.conversion = true) (hgiven : given.maxDepth = none)
    (h : n < 0x1_0000_0000_0000_0000) :
    readArgument accepted given ("--max-depth=" ++ String.ofList (Decimal.natText n)) =
      .ok ({ given with maxDepth := some n }, none) := by
  have hchars : ("--max-depth=" ++ String.ofList (Decimal.natText n)).toList =
      '-' :: '-' :: ("max-depth=".toList ++ Decimal.natText n) := by
    rw [String.toList_append, @String.toList_ofList (Decimal.natText n)]
    rfl
  have hname : String.ofList (("max-depth=".toList ++ Decimal.natText n).takeWhile (· ≠ '=')) =
      "max-depth" := rfl
  have hvalue : ("max-depth=".toList ++ Decimal.natText n).dropWhile (· ≠ '=') =
      '=' :: Decimal.natText n := rfl
  simp only [readArgument, hchars, readLong, hname, hvalue]
  simp [set, natural?_natText h, haccepted, hgiven]
  rfl

theorem readArgument_format {accepted : Accepted} {given : Given} (format : Format)
    (haccepted : accepted.format = true) (hgiven : given.format = none) :
    readArgument accepted given ("--output-format=" ++ formatName format) =
      .ok ({ given with format := some format }, none) := by
  obtain ⟨formats, conversion⟩ := accepted
  obtain ⟨given, keep, depth, name⟩ := given
  cases haccepted
  cases hgiven
  cases format <;> rfl

theorem readArgument_keep {accepted : Accepted} {given : Given}
    (haccepted : accepted.conversion = true) (hgiven : given.keepInterpolation = false) :
    readArgument accepted given "--keep-interpolation" =
      .ok ({ given with keepInterpolation := true }, none) := by
  obtain ⟨formats, conversion⟩ := accepted
  obtain ⟨format, keep, depth, name⟩ := given
  cases haccepted
  cases hgiven
  rfl

theorem readArguments_cons {accepted : Accepted} {given next : Given} {argument : String}
    (hargument : argument ≠ "--") (h : readArgument accepted given argument = .ok (next, none))
    (rest : List String) :
    readArguments accepted given (argument :: rest) = readArguments accepted next rest := by
  rw [readArguments, if_neg hargument, h]
  rfl

theorem readArguments_file {accepted : Accepted} {given : Given} {file : Option String}
    (hfile : ∀ name ∈ file, name ≠ "") (hgiven : given.file = none) :
    readArguments accepted given ("--" :: file.toList) = .ok { given with file } := by
  obtain ⟨format, keep, depth, name⟩ := given
  cases hgiven
  cases file with
  | none =>
      simp only [readArguments, ↓reduceIte]
      rfl
  | some name =>
      have hname : name.isEmpty = false := by simpa using hfile name rfl
      simp [readArguments, setFile, hname]
      rfl

theorem append_ne_dashes {front : String} (h : 2 < front.toList.length) (back : String) :
    front ++ back ≠ "--" := by
  intro heq
  have hlength := congrArg (fun text => text.toList.length) heq
  simp only [String.toList_append, List.length_append] at hlength
  change _ = 2 at hlength
  omega

theorem ofArguments_convert {file : Option String} {options : Options} (format : Format)
    (hfile : ∀ name ∈ file, name ≠ "") (hdepth : options.maxDepth < 0x1_0000_0000_0000_0000) :
    ofArguments (arguments (.convert file format options)) = .ok (.convert file format options) := by
  obtain ⟨keep, depth⟩ := options
  have hgiven : readArguments ⟨true, true⟩ {}
      (arguments (.convert file format ⟨keep, depth⟩)).tail =
      .ok ⟨some format, keep, some depth, file⟩ := by
    simp only [arguments, List.tail_cons]
    rw [readArguments_cons (append_ne_dashes (by decide) _) (readArgument_format format rfl rfl),
      readArguments_cons (append_ne_dashes (by decide) _) (readArgument_maxDepth rfl rfl hdepth)]
    cases keep with
    | false => exact readArguments_file hfile rfl
    | true =>
        simp only [↓reduceIte, List.cons_append, List.nil_append]
        rw [readArguments_cons (by simp) (readArgument_keep rfl rfl)]
        exact readArguments_file hfile rfl
  rw [arguments, List.tail_cons] at hgiven
  simp only [arguments, ofArguments, ↓reduceIte, hgiven, bind, Except.bind]
  rfl

theorem ofArguments_attributes {file : Option String} (format : Format)
    (hfile : ∀ name ∈ file, name ≠ "") :
    ofArguments (arguments (.attributes file format)) = .ok (.attributes file format) := by
  have hgiven : readArguments ⟨true, false⟩ {} (arguments (.attributes file format)).tail =
      .ok { format := some format, file } := by
    simp only [arguments, List.tail_cons]
    rw [readArguments_cons (append_ne_dashes (by decide) _) (readArgument_format format rfl rfl)]
    exact readArguments_file hfile rfl
  rw [arguments, List.tail_cons] at hgiven
  simp only [arguments, ofArguments, String.reduceEq, true_or, ↓reduceIte, hgiven, bind,
    Except.bind]
  rfl

theorem ofArguments_validate {file : Option String} (hfile : ∀ name ∈ file, name ≠ "") :
    ofArguments (arguments (.validate file)) = .ok (.validate file) := by
  have hgiven : readArguments ⟨false, false⟩ {} ("--" :: file.toList) = .ok { file } :=
    readArguments_file hfile rfl
  simp only [arguments, ofArguments, String.reduceEq, or_self, ↓reduceIte, hgiven, bind,
    Except.bind]
  rfl

theorem ofArguments_arguments {command : Command} (h : command.Askable) :
    ofArguments command.arguments = .ok command := by
  cases command with
  | convert file format options =>
      exact ofArguments_convert format h.file (h.maxDepth file format options rfl)
  | attributes file format => exact ofArguments_attributes format h.file
  | validate file => exact ofArguments_validate h.file

theorem call_of_ofArguments {m : Type → Type} [Monad m] {command : Command}
    {arguments : List String} (h : ofArguments arguments = .ok command)
    (read : Command → m Input) :
    call read arguments = (do return command.run (← read command)) := by
  rw [call, h]

end HclToJson.Command
