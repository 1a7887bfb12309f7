import HclToJson.Eval.Operands
import HclToJson.Eval.Reread
import HclToJson.Text.Blank

namespace HclToJson.Eval

/-- The values of the loop variables, the innermost first. -/
abbrev Scope := List (String × Static)

/-- An error is reported in the expression that surrounds the one at fault, if there is one; the
turns of a loop are surrounded by none. -/
def failWith (around : Option Expr) (e : Expr) (cause : Cause) : Except Failure α :=
  .error (.error cause (around.getD e))

def templateText : Static → String
  | .string text => text
  | value => Canonical.value value

/-- The text of a literal part of a template, trimmed at the ends where it is asked for. -/
def literalText (ends : Trim) (text : String) : String :=
  let front := if ends.before then Text.trimFront text.toList else text.toList
  String.ofList (if ends.after then Text.trimBack front else front)

/-- Whether the first of the parts asks for trimming the text in front of it; `behind` if there are
no parts. -/
def asksBefore (behind : Bool) : List Element → Bool
  | [] => behind
  | .literal _ :: _ => false
  | .interpolation _ trim _ :: _ | .choice _ trim .. :: _ | .repetition _ trim .. :: _ =>
      trim.before

def keyText? : Static → Option String
  | .string text => some text
  | .bool value => some (if value then "true" else "false")
  | .number n => some n.text
  | _ => none

/-- The elements that a splat operator goes through. -/
def splatItems : Static → List Static
  | .null => []
  | .array items => items
  | value => [value]

def loopItems? : Static → Option (List (Static × Static))
  | .array items => some (items.mapIdx fun i item => (.number (.ofInt i), item))
  | .object entries => some (entries.map fun (key, value) => (.string key, value))
  | _ => none

def bindLoop (scope : Scope) (loop : Loop) (key value : Static) : Scope :=
  match loop.key with
  | some name => (loop.value, value) :: (name, key) :: scope
  | none => (loop.value, value) :: scope

def attributeOf (fail : Cause → Failure) (value : Static) (name : String) : Except Failure Static :=
  match value with
  | .object entries =>
      match Entries.get? entries name with
      | some value => return value
      | none => throw (fail (.noSuchKey name))
  | value => throw (fail (.unexpected value .object))

def elementOf (fail : Cause → Failure) (value : Static) (index : Nat) : Except Failure Static :=
  match value with
  | .array items =>
      match items[index]? with
      | some value => return value
      | none => throw (fail (.outOfBounds index))
  | value => throw (fail (.unexpected value .array))

def indexOf (fail : Cause → Failure) (value key : Static) : Except Failure Static :=
  match key with
  | .string name => attributeOf fail value name
  | .number (.int (.ofNat index) _) => elementOf fail value index
  | .number _ => throw (fail (.unexpected key .index))
  | _ => throw (fail (.unexpected key .indexOrName))

def booleanOf (fail : Cause → Failure) : Static → Except Failure Bool
  | .bool value => return value
  | value => throw (fail (.unexpected value .boolean))

def keyOf (fail : Cause → Failure) (value : Static) : Except Failure String :=
  match keyText? value with
  | some text => return text
  | none => throw (fail (.unexpected value .keyValue))

/-- Adds an entry to the result of a comprehension, where each key may come once; with `grouping`
a key holds all its values. -/
def addEntry (fail : Cause → Failure) (grouping : Bool) (entries : Entries Static) (key : String)
    (value : Static) : Except Failure (Entries Static) :=
  match Entries.get? entries key with
  | none => return entries.insert key (if grouping then .array [value] else value)
  | some (.array items) =>
      if grouping then return entries.insert key (.array (items ++ [value]))
      else throw (fail (.keyExists key))
  | some _ => throw (fail (.keyExists key))

def walkNames (fail : Cause → Failure) : Static → List Step → Except Failure Static
  | value, .attribute _ name :: rest => do walkNames fail (← attributeOf fail value name) rest
  | value, _ => return value

/-- The values of the turns of a comprehension, behind those that are there; `turn` gives none for a
turn that is left out, and a key if the result is an object. -/
def collect (fail : Cause → Failure) (grouping : Bool)
    (turn : Static × Static → Except Failure (Option (Option String × Static))) :
    List (Static × Static) → List Static → Entries Static →
      Except Failure (List Static × Entries Static)
  | [], values, entries => return (values, entries)
  | item :: rest, values, entries => do
      match ← turn item with
      | none => collect fail grouping turn rest values entries
      | some (none, value) => collect fail grouping turn rest (values ++ [value]) entries
      | some (some key, value) => do
          let entries ← addEntry fail grouping entries key value
          collect fail grouping turn rest values entries

mutual

/-- The operations that an expression consists of; one that is no binary operation is its own
result. `around` is the expression that it is part of. -/
def operands (scope : Scope) (around : Option Expr) : Expr → Operands
  | .binary layout op left right =>
      let whole := Expr.binary layout op left right
      .operation op (operands scope (some whole) left) (operands scope (some whole) right)
  | .null _ => .result (return .null)
  | .bool _ value => .result (return .bool value)
  | .number _ value => .result (return .number value)
  | .string _ value => .result (return .string value)
  | .var layout name =>
      .result (match Entries.get? scope name with
        | some value => return value
        | none => failWith around (.var layout name) (.undefinedVariable name))
  | .array layout items =>
      .result (do return .array (← itemValues scope (.array layout items) items))
  | .object layout items =>
      .result (do return .object (← entryValues scope (.object layout items) items []))
  | .template layout [.interpolation tag trim e] =>
      let whole := Expr.template layout [.interpolation tag trim e]
      .result ((operands scope (some whole) e).evaluate whole)
  | .template layout parts =>
      .result (do return .string (← partsText scope (.template layout parts) ⟨false, false⟩ parts))
  | .heredoc layout indented parts =>
      let whole := Expr.heredoc layout indented parts
      .result (do return .string (← partsText scope whole ⟨false, false⟩ parts))
  | .paren layout inner =>
      let whole := Expr.paren layout inner
      .result ((operands scope (some whole) inner).evaluate whole)
  | .conditional layout condition yes no =>
      let whole := Expr.conditional layout condition yes no
      .result (do
        let chosen ← booleanOf (.error · (around.getD whole))
          (← (operands scope (some whole) condition).evaluate whole)
        if chosen then (operands scope (some whole) yes).evaluate whole
        else (operands scope (some whole) no).evaluate whole)
  | .call layout name arguments spread =>
      .result (failWith around (.call layout name arguments spread) (.undefinedFunction name))
  | .traversal layout base path =>
      let whole := Expr.traversal layout base path
      .result (do
        let value ← (operands scope (some whole) base).evaluate whole
        walk scope whole (.error · (around.getD whole)) false value path)
  | .unary layout op operand =>
      let whole := Expr.unary layout op operand
      .result (do
        let value ← (operands scope (some whole) operand).evaluate whole
        (applyUnary op value).mapError (.error · (around.getD whole)))
  | .comprehension layout loop collection key value grouping filter =>
      let whole := Expr.comprehension layout loop collection key value grouping filter
      let fail := (Failure.error · (around.getD whole))
      .result (do
        let target ← (operands scope (some whole) collection).evaluate whole
        match loopItems? target with
        | none => throw (fail (.unexpected target .arrayOrObject))
        | some items =>
            let turn (item : Static × Static) :
                Except Failure (Option (Option String × Static)) := do
              let scope := bindLoop scope loop item.1 item.2
              if ← filterValue scope whole filter then
                let key ← optionalKey scope whole key
                return some (key, ← (operands scope none value).evaluate value)
              else return none
            let (values, entries) ← collect fail grouping turn items [] []
            return if key.isSome then .object entries else .array values)
  termination_by structural x => x

def itemValues (scope : Scope) (around : Expr) : List Expr → Except Failure (List Static)
  | [] => return []
  | item :: rest => do
      let value ← (operands scope (some around) item).evaluate around
      return value :: (← itemValues scope around rest)
  termination_by structural x => x

def entryValues (scope : Scope) (around : Expr) :
    List Item → Entries Static → Except Failure (Entries Static)
  | [], entries => return entries
  | .mk _ key value :: rest, entries => do
      let key ← keyValue scope around key
      let value ← (operands scope (some around) value).evaluate around
      entryValues scope around rest (entries.insert key value)
  termination_by structural items _ => items

def keyValue (scope : Scope) (around : Expr) : Key → Except Failure String
  | .ident name => return name
  | .expr key => do
      keyOf (.error · around) (← (operands scope (some around) key).evaluate around)
  termination_by structural x => x

def filterValue (scope : Scope) (whole : Expr) : Option Expr → Except Failure Bool
  | none => return true
  | some filter => do
      booleanOf (.error · whole) (← (operands scope none filter).evaluate filter)
  termination_by structural x => x

def optionalKey (scope : Scope) (whole : Expr) : Option Expr → Except Failure (Option String)
  | none => return none
  | some key => do
      return some (← keyOf (.error · whole) (← (operands scope none key).evaluate key))
  termination_by structural x => x

/-- The value that the operators of a traversal lead to. The names directly behind a `.*` belong
to it: while `skip` is set they are passed over. -/
def walk (scope : Scope) (around : Expr) (fail : Cause → Failure) :
    Bool → Static → List Step → Except Failure Static
  | _, value, [] => return value
  | true, value, .attribute _ _ :: rest => walk scope around fail true value rest
  | false, value, .attribute _ name :: rest => do
      walk scope around fail false (← attributeOf fail value name) rest
  | _, value, .element _ index :: rest => do
      walk scope around fail false (← elementOf fail value index) rest
  | _, value, .index _ key :: rest => do
      let key ← (operands scope (some around) key).evaluate around
      walk scope around fail false (← indexOf fail value key) rest
  | _, value, .attributeSplat _ :: rest => do
      let items ← (splatItems value).mapM fun item => walkNames fail item rest
      walk scope around fail true (.array items) rest
  | _, value, .fullSplat _ :: rest => do
      return .array (← (splatItems value).mapM fun item => walk scope around fail false item rest)
  termination_by structural _ _ path => path

/-- The text of the parts of a template; `ends` asks for trimming it at its start and end. -/
def partsText (scope : Scope) (around : Expr) (ends : Trim) : List Element → Except Failure String
  | [] => return ""
  | .literal text :: rest => do
      let next := ⟨false, ends.after⟩
      return literalText ⟨ends.before, asksBefore ends.after rest⟩ text ++
        (← partsText scope around next rest)
  | .interpolation _ trim e :: rest => do
      let value ← (operands scope (some around) e).evaluate around
      return templateText value ++ (← partsText scope around ⟨trim.after, ends.after⟩ rest)
  | .choice _ ifTrim elseTrim endTrim condition yes no :: rest => do
      let value ← (operands scope (some around) condition).evaluate around
      let chosen ← booleanOf (.error · around) value
      let yesEnd := if no.isSome then elseTrim.before else endTrim.before
      let text ←
        if chosen then partsText scope around ⟨ifTrim.after, yesEnd⟩ yes
        else otherwiseText scope around ⟨elseTrim.after, endTrim.before⟩ no
      return text ++ (← partsText scope around ⟨endTrim.after, ends.after⟩ rest)
  | .repetition _ forTrim endTrim loop collection body :: rest => do
      let target ← (operands scope (some around) collection).evaluate around
      match loopItems? target with
      | none => throw (.error (.unexpected target .arrayOrObject) around)
      | some items =>
          let texts ← items.mapM fun (key, value) =>
            partsText (bindLoop scope loop key value) around ⟨forTrim.after, endTrim.before⟩ body
          return String.join texts ++ (← partsText scope around ⟨endTrim.after, ends.after⟩ rest)
  termination_by structural x => x

def otherwiseText (scope : Scope) (around : Expr) (ends : Trim) :
    Option (List Element) → Except Failure String
  | none => return ""
  | some parts => partsText scope around ends parts
  termination_by structural x => x

end

/-- The value of an expression, without any variables. -/
def evaluate (e : Expr) : Except Failure Static :=
  let e := e.evaluable
  (operands [] none e).evaluate e

end HclToJson.Eval
