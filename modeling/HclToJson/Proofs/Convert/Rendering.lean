import HclToJson.Proofs.Convert.Levels
import HclToJson.Proofs.Convert.Reference
import HclToJson.Proofs.Grammar.Tags

/-!
Templates as they are written back into strings, with references marked as interpolations. What is
written reads back as the same template, as long as no literal text opens a marker.
-/

namespace HclToJson.Conversion

open Grammar Text

/-! ### References -/

theorem all_isFixed_bareSteps (path : List Step) :
    (Expr.bareSteps path).all (·.isFixed) = path.all (·.isFixed) := by
  induction path with
  | nil => rfl
  | cons step path ih =>
      cases step with
      | index layout key => cases key <;> exact congrArg₂ and rfl ih
      | _ => exact congrArg₂ and rfl ih

theorem isReference_bare (e : Expr) : e.bare.isReference = e.isReference := by
  cases e with
  | traversal layout base path =>
      cases base <;> simp [Expr.bare, Expr.isReference, all_isFixed_bareSteps]
  | _ => rfl

theorem isReference_reference (ref : Reference) : ref.bare.isReference = true := by
  have hfixed : ref.path.bare.all (·.isFixed) = true := by
    simp only [Path.bare, List.all_map, List.all_eq_true]
    rintro ⟨before, selector⟩ -
    cases selector with
    | key ahead key behind => cases key <;> rfl
    | _ => rfl
  rw [Reference.bare]
  split
  · rfl
  · exact hfixed

/-- An expression that is written as a reference in the source. -/
def Refers (c : Conversion) (e : Expr) : Prop :=
  ∃ ref : Reference, e.bare = ref.bare ∧ e.span.bind (·.slice? c.source) = some ref.bytes

variable {c : Conversion} {e : Expr}

theorem Refers.isReference (h : c.Refers e) : e.isReference = true := by
  obtain ⟨ref, hbare, -⟩ := h
  rw [← isReference_bare, hbare, isReference_reference]

theorem encode_sourceText {ref : Reference}
    (h : e.span.bind (·.slice? c.source) = some ref.bytes) :
    encode (c.sourceText e) = ref.tidy.bytes := by
  obtain ⟨span, hspan, hslice⟩ := Option.bind_eq_some_iff.mp h
  simp only [sourceText, hspan, Option.bind_some, Source.extract?, hslice, Option.map_some]
  exact encode_normalize_reference ref

theorem readsBack_reference (ref : Reference) (h : e.bare = ref.bare) : ReadsBack ref.bytes e where
  firm := by
    have hfirst : FirmByte ref.root.first :=
      Byte.forall_of_lt (p := fun b => Text.isIdentStart b = true ∧ b ≤ 0x7F → FirmByte b)
        (by decide +kernel) ref.root.first ref.root.first_start
    exact ⟨ref.root.first, ref.root.others ++ ref.path.bytes, rfl, hfirst⟩
  expr depth hdepth pos rest := by
    have hpos : 0 < ref.bytes.length := Nat.succ_pos _
    obtain ⟨depth, rfl⟩ := Nat.exists_eq_succ_of_ne_zero (show depth ≠ 0 by omega)
    obtain ⟨read, hread, hbare, -⟩ := ref.expr_eq false depth [] (closes_brace rest) pos
    exact ⟨read, hread, hbare.trans h.symm⟩

/-- The quoted text of a reference reads back. -/
theorem Refers.readsBack (h : c.Refers e) : ReadsBack (encode (c.sourceText e)) e := by
  obtain ⟨ref, hbare, hsource⟩ := h
  rw [encode_sourceText hsource]
  exact readsBack_reference ref.tidy (hbare.trans ref.bare_tidy.symm)

/-! ### What is written for a template -/

mutual

/-- The text of a part of a template if nothing limits its nesting. -/
def writtenPart (c : Conversion) : Element → String
  | .literal text => text
  | .interpolation _ _ e => c.verbatim e
  | .choice _ _ _ _ condition yes no =>
      choiceText (c.sourceText condition) (written c yes) (writtenElse c no)
  | .repetition _ _ _ loop collection body =>
      repetitionText loop (c.sourceText collection) (written c body)
  termination_by structural part => part

def written (c : Conversion) : Template → String
  | [] => ""
  | part :: rest => writtenPart c part ++ written c rest
  termination_by structural parts => parts

def writtenElse (c : Conversion) : Option Template → String
  | none => ""
  | some parts => written c parts
  termination_by structural parts => parts

end

/-- The two bytes that every directive starts with. -/
def directiveOpening : Bytes := [Byte.percent, Byte.openBrace]

/-- The bytes that a literal text ends at if a template and `stop` are behind it; none if literal
text goes on there. -/
def opening (stop : Bytes) : Template → Option Bytes
  | [] => some stop
  | .literal _ :: _ => none
  | .interpolation .. :: _ => some [Byte.dollar, Byte.openBrace]
  | .choice .. :: _ | .repetition .. :: _ => some directiveOpening

/-- A tag without marks for trimming. -/
def unmarked : Trim := ⟨false, false⟩

mutual

/-- A part that is written in front of `next` in a form that stands for it: no literal text opens a
marker, no tag has a strip mark, interpolations are references, and the texts of conditions and
collections read back. -/
def ExpressiblePart (c : Conversion) (next : Option Bytes) : Element → Prop
  | .literal text => text ≠ "" ∧ ∃ front ∈ next, inert (encode text) front = true
  | .interpolation _ trim e => trim = unmarked ∧ c.Refers e
  | .choice _ ifTrim elseTrim endTrim condition yes no =>
      (ifTrim = unmarked ∧ elseTrim = unmarked ∧ endTrim = unmarked) ∧
        ReadsBack (encode (c.sourceText condition)) condition ∧
        Expressible c directiveOpening yes ∧ ExpressibleElse c no
  | .repetition _ forTrim endTrim loop collection body =>
      (forTrim = unmarked ∧ endTrim = unmarked) ∧
        ((∀ key ∈ loop.key, IsName key) ∧ IsName loop.value) ∧
        ReadsBack (encode (c.sourceText collection)) collection ∧
        Expressible c directiveOpening body
  termination_by structural part => part

/-- A template all of whose parts are expressible where they stand, in front of `stop`. -/
def Expressible (c : Conversion) (stop : Bytes) : Template → Prop
  | [] => True
  | part :: rest => ExpressiblePart c (opening stop rest) part ∧ Expressible c stop rest
  termination_by structural parts => parts

def ExpressibleElse (c : Conversion) : Option Template → Prop
  | none => True
  | some parts => Expressible c directiveOpening parts
  termination_by structural parts => parts

end

theorem partLevels_reference (h : e.isReference = true) : e.partLevels = 1 := by
  cases e with
  | var layout name => rfl
  | traversal layout base path => rfl
  | _ => cases h

theorem stringPart_reference (h : e.isReference = true) {depth : Nat}
    (hdepth : depth + 1 ≤ c.options.maxDepth) : c.stringPart depth e = .ok (c.verbatim e) := by
  cases e with
  | var layout name => simp only [stringPart, descend_of_lt hdepth]; rfl
  | traversal layout base path => simp only [stringPart, descend_of_lt hdepth]; rfl
  | _ => cases h

mutual

theorem template_eq_written {c : Conversion} : (parts : Template) → {stop : Bytes} → {depth : Nat} →
    Expressible c stop parts → depth + Expr.partsLevels parts ≤ c.options.maxDepth →
    c.template depth parts = .ok (written c parts)
  | [], _, _, _, _ => rfl
  | .literal text :: rest, stop, depth, ⟨_, hrest⟩, hdepth => by
      have hothers := template_eq_written rest hrest hdepth
      simp only [template, hothers]
      rfl
  | .interpolation _ _ e :: rest, stop, depth, ⟨⟨_, href⟩, hrest⟩, hdepth => by
      simp only [Expr.partsLevels, partLevels_reference href.isReference] at hdepth
      have htext : c.stringPart depth e = .ok (c.verbatim e) :=
        stringPart_reference href.isReference (by omega)
      have hothers := template_eq_written rest hrest (show depth + _ ≤ _ by omega)
      simp only [template, htext, hothers]
      rfl
  | .choice _ _ _ _ condition yes no :: rest, stop, depth, ⟨⟨_, _, hyes, hno⟩, hrest⟩, hdepth => by
      simp only [Expr.partsLevels] at hdepth
      have hdescend : c.descend depth = .ok (depth + 1) := descend_of_lt (by omega)
      have hyesText := template_eq_written yes hyes (show depth + 1 + _ ≤ _ by omega)
      have hnoText := optionalTemplate_eq_written no hno (show depth + 1 + _ ≤ _ by omega)
      have hothers := template_eq_written rest hrest (show depth + _ ≤ _ by omega)
      simp only [template, hdescend, bind, Except.bind, hyesText, hnoText, hothers]
      rfl
  | .repetition _ _ _ loop collection body :: rest, stop, depth, ⟨⟨_, _, _, hbody⟩, hrest⟩,
      hdepth => by
      simp only [Expr.partsLevels] at hdepth
      have hdescend : c.descend depth = .ok (depth + 1) := descend_of_lt (by omega)
      have hbodyText := template_eq_written body hbody (show depth + 1 + _ ≤ _ by omega)
      have hothers := template_eq_written rest hrest (show depth + _ ≤ _ by omega)
      simp only [template, hdescend, bind, Except.bind, hbodyText, hothers]
      rfl

theorem optionalTemplate_eq_written {c : Conversion} : (no : Option Template) → {depth : Nat} →
    ExpressibleElse c no → depth + Expr.elseLevels no ≤ c.options.maxDepth →
    c.optionalTemplate depth no = .ok (writtenElse c no)
  | none, _, _, _ => rfl
  | some parts, _, h, hdepth => template_eq_written parts h hdepth

end

/-! ### What is written reads back -/

theorem encode_choiceText (condition yes no : String) :
    encode (choiceText condition yes no) = choiceBytes (encode condition) (encode yes)
      (if no.isEmpty then [] else directive "else" (Byte.closeBrace :: encode no)) := by
  have hif : encode "%\x7bif " = directive "if" [Byte.space] := rfl
  have hbrace : encode "\x7d" = [Byte.closeBrace] := rfl
  have helse : encode "%\x7belse\x7d" = directive "else" [Byte.closeBrace] := rfl
  have hendif : encode "%\x7bendif\x7d" = directive "endif" [Byte.closeBrace] := rfl
  have hempty : encode "" = [] := rfl
  rw [choiceText]
  split
  · simp only [encode_append, hif, hbrace, hendif, hempty, choiceBytes, directive_append,
      List.append_assoc, List.cons_append, List.nil_append]
  · simp only [encode_append, hif, hbrace, helse, hendif, choiceBytes, directive_append,
      List.append_assoc, List.cons_append, List.nil_append]

theorem encode_repetitionText (loop : Loop) (collection body : String) :
    encode (repetitionText loop collection body) =
      repetitionBytes loop (encode collection) (encode body) := by
  have hfor : encode "%\x7bfor " = directive "for" [Byte.space] := rfl
  have hcomma : encode ", " = [Byte.comma, Byte.space] := rfl
  have hin : encode " in " = Byte.space :: (encode "in" ++ [Byte.space]) := rfl
  have hbrace : encode "\x7d" = [Byte.closeBrace] := rfl
  have hendfor : encode "%\x7bendfor\x7d" = directive "endfor" [Byte.closeBrace] := rfl
  have hempty : encode "" = [] := rfl
  obtain ⟨key, value⟩ := loop
  cases key with
  | none =>
      simp only [repetitionText, encode_append, hfor, hin, hbrace, hendfor, hempty, repetitionBytes,
        loopBytes, directive_append, List.append_assoc, List.cons_append, List.nil_append]
  | some key =>
      simp only [repetitionText, encode_append, hfor, hcomma, hin, hbrace, hendfor,
        repetitionBytes, loopBytes, directive_append, List.append_assoc, List.cons_append,
        List.nil_append]

theorem encode_verbatim (hkeep : c.options.keepInterpolation = true) (h : e.isReference = true) :
    encode (c.verbatim e) =
      Byte.dollar :: Byte.openBrace :: (encode (c.sourceText e) ++ [Byte.closeBrace]) := by
  have hopen : encode "$\x7b" = [Byte.dollar, Byte.openBrace] := rfl
  have hbrace : encode "\x7d" = [Byte.closeBrace] := rfl
  simp only [verbatim, h, referenceText, hkeep, ↓reduceIte, encode_append, hopen, hbrace,
    List.cons_append, List.nil_append]

/-- A text starts with two bytes that are known, or all of it is. -/
def Opens (front text : Bytes) : Prop :=
  ∃ more, text = front ++ more ∧ (2 ≤ front.length ∨ more = [])

theorem Opens.inert {text front next : Bytes} (h : Opens front next)
    (hinert : inert text front = true) : inert text next = true := by
  obtain ⟨more, rfl, hlength | rfl⟩ := h
  · rw [inert_append text hlength, hinert]
  · rw [List.append_nil, hinert]

theorem opens_directive (word : String) (rest : Bytes) :
    Opens directiveOpening (directive word rest) :=
  ⟨_, rfl, Or.inl (Nat.le_refl 2)⟩

/-- In front of which bytes a literal text ends, and that the run of the text stops there. -/
theorem opens_written (hkeep : c.options.keepInterpolation = true) {stop rest : Bytes}
    (hstop : Opens stop rest ∧ Marked rest) (parts : Template) (h : c.Expressible stop parts) :
    ∀ front ∈ opening stop parts,
      Opens front (encode (written c parts) ++ rest) ∧
        Marked (encode (written c parts) ++ rest) := by
  intro front hfront
  cases parts with
  | nil =>
      obtain rfl : stop = front := Option.some.inj hfront
      exact hstop
  | cons part others =>
      rw [written, encode_append]
      cases part with
      | literal text => cases hfront
      | interpolation layout trim e =>
          obtain rfl := Option.some.inj hfront
          obtain ⟨⟨-, href⟩, -⟩ := h
          rw [writtenPart, encode_verbatim hkeep href.isReference]
          exact ⟨⟨_, rfl, Or.inl (Nat.le_refl 2)⟩, Or.inr ⟨Byte.dollar, _, rfl, Or.inl rfl⟩⟩
      | choice layout ifTrim elseTrim endTrim condition yes no =>
          obtain rfl := Option.some.inj hfront
          rw [writtenPart, encode_choiceText, choiceBytes, List.append_assoc, directive_append]
          exact ⟨opens_directive _ _, marked_directive _ _⟩
      | repetition layout forTrim endTrim loop collection body =>
          obtain rfl := Option.some.inj hfront
          rw [writtenPart, encode_repetitionText, repetitionBytes, List.append_assoc,
            directive_append]
          exact ⟨opens_directive _ _, marked_directive _ _⟩

theorem encode_ne_nil {text : String} (h : text ≠ "") : encode text ≠ [] := by
  intro hnil
  apply h
  rw [← ofBytes_encode text, hnil]
  rfl

mutual

theorem readsPart_written {c : Conversion} (hkeep : c.options.keepInterpolation = true) :
    (part : Element) → {next : Option Bytes} → ExpressiblePart c next part → {rest : Bytes} →
    (∀ front ∈ next, Opens front rest ∧ Marked rest) →
    ReadsPart (encode (writtenPart c part)) part rest
  | .literal text, next, ⟨hne, front, hfront, hinert⟩, rest, hnext => by
      obtain ⟨hopens, hmarked⟩ := hnext front hfront
      have hliteral := readsPart_literal (hopens.inert hinert) hmarked (encode_ne_nil hne)
      rwa [ofBytes_encode] at hliteral
  | .interpolation layout _ e, next, ⟨rfl, href⟩, rest, _ => by
      rw [writtenPart, encode_verbatim hkeep href.isReference]
      exact readsPart_interpolation href.readsBack layout rest
  | .choice layout _ _ _ condition yes no, next, ⟨⟨rfl, rfl, rfl⟩, hcondition, hyes, hno⟩,
      rest, _ => by
      rw [writtenPart, encode_choiceText]
      refine readsPart_choice hcondition ?_ (readsElse_written hkeep no hno _) layout
      split
      · exact readsParts_written hkeep yes hyes (stops_directive (by decide) _) (opens_directive _ _)
      · rw [directive_append]
        exact readsParts_written hkeep yes hyes (stops_directive (by decide) _) (opens_directive _ _)
  | .repetition layout _ _ loop collection body, next, ⟨⟨rfl, rfl⟩, hloop, hcollection, hbody⟩,
      rest, _ => by
      rw [writtenPart, encode_repetitionText]
      refine readsPart_repetition hloop.1 hloop.2 hcollection ?_ layout
      exact readsParts_written hkeep body hbody (stops_directive (by decide) _) (opens_directive _ _)

theorem readsParts_written {c : Conversion} (hkeep : c.options.keepInterpolation = true) :
    (parts : Template) → {stop : Bytes} → Expressible c stop parts → {rest : Bytes} → Stops rest →
    Opens stop rest → ReadsParts (encode (written c parts)) parts rest
  | [], stop, _, rest, hstops, _ => hstops.readsParts
  | part :: others, stop, ⟨hpart, hothers⟩, rest, hstops, hstop => by
      have hnext := opens_written hkeep ⟨hstop, hstops.1⟩ others hothers
      rw [written, encode_append]
      exact (readsPart_written hkeep part hpart hnext).cons
        (readsParts_written hkeep others hothers hstops hstop)

theorem readsElse_written {c : Conversion} (hkeep : c.options.keepInterpolation = true) :
    (no : Option Template) → ExpressibleElse c no → (rest : Bytes) →
    ReadsElse (if (writtenElse c no).isEmpty then [] else
      directive "else" (Byte.closeBrace :: encode (writtenElse c no))) no rest
  | none, _, rest => readsElse_nil rfl rest
  | some [], _, rest => readsElse_nil rfl rest
  | some (part :: others), h, rest => by
      have hparts := readsParts_written hkeep (part :: others) h
        (stops_directive (by decide : "endif" ∈ closingWords) rest) (opens_directive _ _)
      have hpart := readsPart_written hkeep part h.1
        (opens_written hkeep ⟨opens_directive _ _, marked_directive "endif" rest⟩ others h.2)
      have hne : (writtenElse c (some (part :: others))).isEmpty = false := by
        rw [writtenElse, written, Bool.eq_false_iff]
        intro hempty
        have hnil := congrArg encode (String.isEmpty_iff.mp hempty)
        rw [encode_append] at hnil
        exact hpart.1 (List.append_eq_nil_iff.mp hnil).1
      rw [hne]
      exact hparts.readsElse (List.cons_ne_nil _ _)

end

/-- A template is written back, and is read as the same template again, but for blanks and empty
`else` branches, if its literal texts open no markers, its tags have no strip marks, and its
conditions and collections survive being quoted. -/
theorem template_reads_back {parts : Template} {depth : Nat}
    (hkeep : c.options.keepInterpolation = true) (hparts : c.Expressible [] parts)
    (hdepth : depth + Expr.partsLevels parts ≤ c.options.maxDepth) :
    ∃ text read, c.template depth parts = .ok text ∧ template? (encode text) = some read ∧
      Expr.bareElements read = Expr.bareElements parts := by
  have htext := template_eq_written parts hparts hdepth
  have hopens : Opens [] [] := ⟨[], rfl, Or.inr rfl⟩
  have hreads := readsParts_written hkeep parts hparts stops_nil hopens
  obtain ⟨read, hread, hbare⟩ := template?_of_readsParts hreads
  exact ⟨written c parts, read, htext, hread, hbare⟩

theorem letter_ne_for (b : UInt8) : [b] ≠ encode "for" := by
  have hlength : (encode "for").length = 3 := by decide
  intro h
  rw [← h] at hlength
  cases hlength

def letter (b : UInt8) (h : Text.isIdentStart b = true ∧ b ≤ 0x7F) : Name :=
  ⟨b, [], h, fun _ hc => absurd hc List.not_mem_nil, letter_ne_for b⟩

/-- The reference `n`, for a name of one letter. -/
def letterReference (b : UInt8) (h : Text.isIdentStart b = true ∧ b ≤ 0x7F) : Reference where
  root := letter b h
  root_ne := by
    have hshort : ∀ b, Text.isIdentStart b = true ∧ b ≤ 0x7F →
        Text.ofBytes [b] ∉ ["null", "true", "false"] := Byte.forall_of_lt (by decide +kernel)
    exact hshort b h
  path := []

/-- The reference `a /**/ .b`. -/
def commentedReference : Reference :=
  { letterReference 0x61 (by decide) with
    path := [⟨⟨[.space, .blockComment [] (by decide), .space], by decide⟩,
      .name [] (letter 0x62 (by decide))⟩] }

def commentedTemplate : Bytes :=
  encode ("-$\x7b a /**/ .b \x7d%\x7bif c\x7d%\x7bfor k, v in d\x7d$\x7bv\x7d%\x7bendfor\x7d" ++
    "%\x7belse\x7d$\x7be\x7d%\x7bendif\x7d")

def standing (start stop : Nat) : Layout := ⟨some ⟨start, stop⟩, [], [], []⟩

/-- The parts of `commentedTemplate`, with the places of the references. -/
def commentedParts : Template :=
  [.literal "-",
    .interpolation .nowhere unmarked
      (.traversal (standing 4 13) (.var .nowhere "a") [.attribute .nowhere "b"]),
    .choice .nowhere unmarked unmarked unmarked (.var (standing 20 21) "c")
      [.repetition .nowhere unmarked unmarked ⟨some "k", "v"⟩ (.var (standing 36 37) "d")
        [.interpolation .nowhere unmarked (.var (standing 40 41) "v")]]
      (some [.interpolation .nowhere unmarked (.var (standing 60 61) "e")])]

theorem refers_letter {source : Bytes} {options : Options} (b : UInt8)
    (h : Text.isIdentStart b = true ∧ b ≤ 0x7F) {start stop : Nat} {name : String}
    (hname : name = Text.ofBytes [b]) (hslice : (Span.mk start stop).slice? source = some [b]) :
    Refers ⟨source, options⟩ (.var (standing start stop) name) := by
  subst hname
  exact ⟨letterReference b h, rfl, hslice⟩

theorem expressible_commented (options : Options) :
    Expressible ⟨commentedTemplate, options⟩ [] commentedParts := by
  have hliteral : ExpressiblePart ⟨commentedTemplate, options⟩ (some [Byte.dollar, Byte.openBrace])
      (.literal "-") := ⟨by decide, _, rfl, by decide⟩
  have hslice : (Span.mk 4 13).slice? commentedTemplate = some commentedReference.bytes := by
    decide
  have hcommented : Refers ⟨commentedTemplate, options⟩
      (.traversal (standing 4 13) (.var .nowhere "a") [.attribute .nowhere "b"]) :=
    ⟨commentedReference, rfl, hslice⟩
  have hcondition : Refers ⟨commentedTemplate, options⟩ (.var (standing 20 21) "c") :=
    refers_letter 0x63 (by decide) (by decide) (by decide)
  have hcollection : Refers ⟨commentedTemplate, options⟩ (.var (standing 36 37) "d") :=
    refers_letter 0x64 (by decide) (by decide) (by decide)
  have hvalue : Refers ⟨commentedTemplate, options⟩ (.var (standing 40 41) "v") :=
    refers_letter 0x76 (by decide) (by decide) (by decide)
  have helse : Refers ⟨commentedTemplate, options⟩ (.var (standing 60 61) "e") :=
    refers_letter 0x65 (by decide) (by decide) (by decide)
  have hkey : IsName "k" := ⟨letter 0x6B (by decide), by decide⟩
  have hname : IsName "v" := ⟨letter 0x76 (by decide), by decide⟩
  have hloop : Expressible ⟨commentedTemplate, options⟩ directiveOpening
      [.repetition .nowhere unmarked unmarked ⟨some "k", "v"⟩ (.var (standing 36 37) "d")
        [.interpolation .nowhere unmarked (.var (standing 40 41) "v")]] :=
    ⟨⟨⟨rfl, rfl⟩, ⟨fun _ h => Option.some.inj h ▸ hkey, hname⟩, hcollection.readsBack,
      ⟨rfl, hvalue⟩, trivial⟩, trivial⟩
  exact ⟨hliteral, ⟨rfl, hcommented⟩,
    ⟨⟨rfl, rfl, rfl⟩, hcondition.readsBack, hloop, ⟨rfl, helse⟩, trivial⟩, trivial⟩

def keeping : Options := { keepInterpolation := true }

theorem template_reads_back_commented :
    let c : Conversion := ⟨commentedTemplate, keeping⟩
    c.options.keepInterpolation = true ∧ c.Expressible [] commentedParts ∧
      0 + Expr.partsLevels commentedParts ≤ c.options.maxDepth ∧
      ∃ text read, c.template 0 commentedParts = .ok text ∧ template? (encode text) = some read ∧
        Expr.bareElements read = Expr.bareElements commentedParts :=
  have hparts := expressible_commented keeping
  have hdepth : 0 + Expr.partsLevels commentedParts ≤ keeping.maxDepth := by decide
  ⟨rfl, hparts, hdepth, template_reads_back rfl hparts hdepth⟩

/-- The text of each literal part of a template, and nothing of the other parts. -/
def literals (parts : Template) : List (Option String) :=
  parts.map fun
    | .literal text => some text
    | _ => none

def writtenBack? (text : Bytes) : Option String :=
  (template? text).bind fun parts => (Conversion.template ⟨text, keeping⟩ 0 parts).toOption

/-- A doubled marker is written back as a single one, which opens an interpolation or, where no
directive starts behind it, makes the template unreadable. Strip marks are not written back. -/
theorem marker_reopened :
    (writtenBack? (encode "$$\x7ba\x7d$\x7bb\x7d") = some "$\x7ba\x7d$\x7bb\x7d" ∧
      (template? (encode "$$\x7ba\x7d$\x7bb\x7d")).map literals = some [some "$\x7ba\x7d", none] ∧
      (template? (encode "$\x7ba\x7d$\x7bb\x7d")).map literals = some [none, none]) ∧
    (writtenBack? (encode "%\x7bif c\x7d%%\x7bx\x7d%\x7bendif\x7d") =
        some "%\x7bif c\x7d%\x7bx\x7d%\x7bendif\x7d" ∧
      template? (encode "%\x7bif c\x7d%\x7bx\x7d%\x7bendif\x7d") = none) ∧
    writtenBack? (encode "%\x7b~ if c ~\x7d x %\x7b~ endif ~\x7d") =
      some "%\x7bif c\x7d x %\x7bendif\x7d" := by
  refine ⟨⟨by decide +kernel, by decide +kernel, by decide +kernel⟩, ⟨by decide +kernel, ?_⟩,
    by decide +kernel⟩
  have h : (template? (encode "%\x7bif c\x7d%\x7bx\x7d%\x7bendif\x7d")).isNone = true := by
    decide +kernel
  exact Option.isNone_iff_eq_none.mp h

end HclToJson.Conversion
