import HclToJson.Proofs.Grammar.Reference
import HclToJson.Proofs.Text.Utf8

namespace HclToJson.Grammar

open HclToJson.Parser

/-! ### Literal text -/

/-- Whether no marker opens in a text, and none is doubled, with what follows the text behind it. -/
def inert : Bytes → Bytes → Bool
  | [], _ => true
  | b :: rest, next =>
      !opensMarker (b :: rest ++ next) && (doubledMarker? (b :: rest ++ next)).isNone &&
        inert rest next

theorem opensMarker_cons (b c : UInt8) (rest : Bytes) :
    opensMarker (b :: c :: rest) =
      (decide (c = Byte.openBrace) && (decide (b = Byte.dollar) || decide (b = Byte.percent))) := by
  rw [opensMarker.eq_def]
  split
  · rename_i heq
    simp only [List.cons.injEq] at heq
    obtain ⟨rfl, rfl, -⟩ := heq
    rfl
  · rename_i hother
    have hc : c ≠ Byte.openBrace := by
      rintro rfl
      exact hother b rest rfl
    simp [hc]

theorem doubledMarker?_cons (b c d : UInt8) (rest : Bytes) :
    doubledMarker? (b :: c :: d :: rest) = doubledMarker? [b, c, d] := by
  simp only [doubledMarker?, opensMarker_cons]

/-- Whether a text is inert is decided by the first two bytes that follow it. -/
theorem inert_append (text : Bytes) {next : Bytes} (hnext : 2 ≤ next.length) (more : Bytes) :
    inert text (next ++ more) = inert text next := by
  obtain ⟨c, d, next, rfl⟩ : ∃ c d rest, next = c :: d :: rest := by
    match next, hnext with
    | c :: d :: rest, _ => exact ⟨c, d, rest, rfl⟩
  induction text with
  | nil => rfl
  | cons b text ih =>
      rw [inert, inert, ih]
      rcases text with _ | ⟨e, _ | ⟨f, text⟩⟩
      all_goals simp only [List.nil_append, List.cons_append, opensMarker_cons, doubledMarker?_cons]

/-- The end of a text, or the opening of a marker. -/
def Marked (text : Bytes) : Prop :=
  text = [] ∨ ∃ b rest, text = b :: Byte.openBrace :: rest ∧ (b = Byte.dollar ∨ b = Byte.percent)

theorem Marked.rawRun {text : Bytes} (h : Marked text) (fuel : Bytes) :
    rawRun (fun _ => false) fuel text = (0, []) := by
  cases fuel with
  | nil => rfl
  | cons c fuel =>
      rcases h with rfl | ⟨b, rest, rfl, rfl | rfl⟩ <;> rfl

theorem rawRun_inert {text next : Bytes} (h : inert text next = true) (hnext : Marked next)
    {fuel : Bytes} (hfuel : text.length ≤ fuel.length) :
    rawRun (fun _ => false) fuel (text ++ next) = (text.length, text) := by
  induction text generalizing fuel with
  | nil => exact hnext.rawRun fuel
  | cons b text ih =>
      obtain ⟨c, fuel, rfl⟩ := List.exists_cons_of_length_pos (Nat.lt_of_lt_of_le (by simp) hfuel)
      simp only [inert, Bool.and_eq_true, Bool.not_eq_true', Option.isNone_iff_eq_none] at h
      obtain ⟨⟨hopens, hdoubled⟩, hrest⟩ := h
      have hrun := ih hrest (Nat.le_of_succ_le_succ hfuel)
      simp only [List.cons_append] at hopens hdoubled ⊢
      simp only [rawRun, hopens, hdoubled, Bool.false_eq_true, ↓reduceIte, List.drop_one,
        List.tail_cons, hrun, List.length_cons, Nat.add_comm 1]
      rfl

theorem rawText_inert {text next : Bytes} (h : inert text next = true) (hnext : Marked next)
    (hne : text ≠ []) (pos : Nat) :
    rawText (fun _ => false) ⟨pos, text ++ next⟩ =
      .ok (Text.ofBytes text, ⟨pos + text.length, next⟩) := by
  have hfuel : text.length ≤ (text ++ next).length := by simp
  have hrun := rawRun_inert h hnext hfuel
  have hpos : decide (0 < text.length) = true := decide_eq_true (List.length_pos_of_ne_nil hne)
  simp only [rawText, bind_eq, ahead_eq, hrun, require_eq, hpos, ↓reduceIte, discard_eq, take_eq,
    List.drop_left, pure_eq]

theorem Marked.rawText {text : Bytes} (h : Marked text) (pos : Nat) :
    rawText (fun _ => false) ⟨pos, text⟩ = .error .miss := by
  simp only [Grammar.rawText, bind_eq, ahead_eq, h.rawRun, require_eq]
  rfl

/-! ### Tags -/

/-- A byte that neither is a strip mark nor begins a blank. -/
abbrev FirmByte (b : UInt8) : Prop :=
  b ∉ [Byte.space, Byte.tab, Byte.newline, Byte.carriageReturn, Byte.slash, Byte.hash, Byte.tilde]

/-- A text that can stand right behind the opening of a tag. -/
def Firm (text : Bytes) : Prop := ∃ b others, text = b :: others ∧ FirmByte b

theorem Firm.solid {text : Bytes} (h : Firm text) (rest : Bytes) : Solid (text ++ rest) := by
  obtain ⟨b, others, rfl, hb⟩ := h
  intro c hc
  obtain rfl : b = c := by simpa using hc
  simp only [FirmByte, List.mem_cons, List.not_mem_nil, or_false, not_or] at hb ⊢
  tauto

theorem Firm.flag_eq {text : Bytes} (h : Firm text) (rest : Bytes) (pos : Nat) :
    flag Byte.tilde ⟨pos, text ++ rest⟩ = .ok (false, ⟨pos, text ++ rest⟩) := by
  obtain ⟨b, others, rfl, hb⟩ := h
  refine flag_of_ne fun htilde => hb ?_
  obtain rfl : b = Byte.tilde := Option.some.inj htilde
  simp

theorem Firm.blankLines_eq {text : Bytes} (h : Firm text) (rest : Bytes) (pos : Nat) :
    blankLines ⟨pos, text ++ rest⟩ = .ok (⟨⟩, ⟨pos, text ++ rest⟩) :=
  @blankLines_gap [] _ (h.solid rest) pos

theorem firm_closeBrace : Firm [Byte.closeBrace] :=
  ⟨Byte.closeBrace, [], rfl, by decide⟩

theorem closeTag_eq (rest : Bytes) (pos : Nat) :
    closeTag ⟨pos, Byte.closeBrace :: rest⟩ = .ok (false, ⟨pos + 1, rest⟩) := by
  have hflag : flag Byte.tilde ⟨pos, Byte.closeBrace :: rest⟩ =
      .ok (false, ⟨pos, Byte.closeBrace :: rest⟩) := firm_closeBrace.flag_eq rest pos
  simp only [closeTag, bind_eq, hflag, must_eq, byte_eq, pure_eq]

theorem openTag_eq {text : Bytes} (h : Firm text) (rest : Bytes) (pos : Nat) :
    openTag ⟨pos, Byte.percent :: Byte.openBrace :: (text ++ rest)⟩ =
      .ok (false, ⟨pos + 2, text ++ rest⟩) := by
  have hopen : exactly [Byte.percent, Byte.openBrace]
      ⟨pos, Byte.percent :: Byte.openBrace :: (text ++ rest)⟩ =
      .ok (⟨⟩, ⟨pos + 2, text ++ rest⟩) := exactly_eq [Byte.percent, Byte.openBrace] _ pos
  simp only [openTag, bind_eq, hopen, h.flag_eq, h.blankLines_eq, pure_eq]

/-- The words that directives are written with. -/
def directiveWords : List String := ["if", "else", "endif", "for", "in", "endfor"]

theorem firm_encode {word : String} (h : word ∈ directiveWords) : Firm (Text.encode word) := by
  have hword : ∃ b others, Text.encode word = b :: others ∧ b ∈ [0x69, 0x65, 0x66] := by
    simp only [directiveWords, List.mem_cons, List.not_mem_nil, or_false] at h
    rcases h with rfl | rfl | rfl | rfl | rfl | rfl
    all_goals exact ⟨_, _, rfl, by decide⟩
  obtain ⟨b, others, hbytes, hb⟩ := hword
  refine ⟨b, others, hbytes, ?_⟩
  simp only [List.mem_cons, List.not_mem_nil, or_false] at hb
  rcases hb with rfl | rfl | rfl <;> decide

/-- What is written for the opening of a directive. -/
def directive (word : String) (rest : Bytes) : Bytes :=
  Byte.percent :: Byte.openBrace :: (Text.encode word ++ rest)

theorem directive_append (word : String) (text rest : Bytes) :
    directive word text ++ rest = directive word (text ++ rest) := by
  simp [directive]

theorem openTag_directive {word : String} (h : word ∈ directiveWords) (rest : Bytes) (pos : Nat) :
    openTag ⟨pos, directive word rest⟩ = .ok (false, ⟨pos + 2, Text.encode word ++ rest⟩) :=
  openTag_eq (firm_encode h) rest pos

theorem keyword_eq (word : String) (rest : Bytes) (pos : Nat) :
    keyword word ⟨pos, Text.encode word ++ rest⟩ =
      .ok (⟨⟩, ⟨pos + (Text.encode word).length, rest⟩) :=
  exactly_eq _ rest pos

theorem wordTag_eq {word : String} (h : word ∈ directiveWords) (rest : Bytes) (pos : Nat) :
    wordTag word ⟨pos, directive word (Byte.closeBrace :: rest)⟩ =
      .ok (⟨false, false⟩, ⟨pos + (directive word [Byte.closeBrace]).length, rest⟩) := by
  have hblank : ∀ pos, blankLines ⟨pos, Byte.closeBrace :: rest⟩ =
      .ok (⟨⟩, ⟨pos, Byte.closeBrace :: rest⟩) := firm_closeBrace.blankLines_eq rest
  have hlength : pos + (directive word [Byte.closeBrace]).length =
      pos + 2 + (Text.encode word).length + 1 := by
    simp only [directive, List.length_cons, List.length_append, List.length_nil]
    omega
  rw [hlength]
  simp only [wordTag, bind_eq, openTag_directive h, keyword_eq, hblank, closeTag_eq, pure_eq]

/-- A keyword is not found where another word stands that does not start with it. -/
theorem keyword_miss {word other : String}
    (h : (Text.encode word).length ≤ (Text.encode other).length ∧
      (Text.encode word).isPrefixOf (Text.encode other) = false) (rest : Bytes) (pos : Nat) :
    keyword word ⟨pos, Text.encode other ++ rest⟩ = .error .miss := by
  refine exactly_miss ?_
  rw [Bool.eq_false_iff]
  intro hprefix
  have hother : Text.encode word <+: Text.encode other :=
    List.prefix_of_prefix_length_le (List.isPrefixOf_iff_prefix.mp hprefix)
      (List.prefix_append _ rest) h.1
  rw [List.isPrefixOf_iff_prefix.mpr hother] at h
  exact Bool.noConfusion h.2

/-- The word that is not written where a tag opens with another one. -/
theorem wordTag_miss {word other : String} (hother : other ∈ directiveWords)
    (h : (Text.encode word).length ≤ (Text.encode other).length ∧
      (Text.encode word).isPrefixOf (Text.encode other) = false) (rest : Bytes) (pos : Nat) :
    wordTag word ⟨pos, directive other rest⟩ = .error .miss := by
  simp only [wordTag, bind_eq, openTag_directive hother, keyword_miss h]

/-! ### Elements -/

/-- The elements of a template that is not quoted. -/
abbrev rawElement (depth : Nat) : Parser (Located Element) :=
  element (rawText fun _ => false) (nestedTo depth)

/-- A text at which a list of elements ends. -/
def Stops (text : Bytes) : Prop :=
  Marked text ∧ ∀ depth pos, rawElement depth ⟨pos, text⟩ = .error .miss

theorem stops_nil : Stops [] := by
  refine ⟨Or.inl rfl, fun depth pos => ?_⟩
  rfl

theorem marked_directive (word : String) (rest : Bytes) : Marked (directive word rest) :=
  Or.inr ⟨Byte.percent, _, rfl, Or.inr rfl⟩

theorem interpolation_miss {text : Bytes} (h : text.head? ≠ some Byte.dollar) (nested : Nested)
    (pos : Nat) : interpolation nested ⟨pos, text⟩ = .error .miss := by
  have hprefix : [Byte.dollar, Byte.openBrace].isPrefixOf text = false := by
    cases text with
    | nil => rfl
    | cons b rest =>
        have hb : ¬ Byte.dollar = b := fun heq => h (by rw [heq]; rfl)
        simp [List.isPrefixOf, hb]
  have hmiss : exactly [Byte.dollar, Byte.openBrace] ⟨pos, text⟩ = .error .miss :=
    exactly_miss hprefix
  simp only [interpolation, bind_eq, get_eq, hmiss]

/-- Where a directive opens, the element is a choice or a repetition. -/
theorem rawElement_directive (word : String) (rest : Bytes) (depth pos : Nat) :
    rawElement depth ⟨pos, directive word rest⟩ =
      Parser.located (Parser.either (choice (nestedTo depth)) (repetition (nestedTo depth)))
        ⟨pos, directive word rest⟩ := by
  have hdollar : (directive word rest).head? ≠ some Byte.dollar := by
    rw [directive, List.head?_cons]
    decide
  simp only [rawElement, element, located_eq, either_eq, map_eq,
    (marked_directive word rest).rawText, interpolation_miss hdollar]

/-- The words that end the body of a directive. -/
def closingWords : List String := ["else", "endif", "endfor"]

theorem stops_directive {word : String} (h : word ∈ closingWords) (rest : Bytes) :
    Stops (directive word rest) := by
  have hclosing : word ∈ directiveWords ∧
      ((Text.encode "if").length ≤ (Text.encode word).length ∧
        (Text.encode "if").isPrefixOf (Text.encode word) = false) ∧
      (Text.encode "for").length ≤ (Text.encode word).length ∧
        (Text.encode "for").isPrefixOf (Text.encode word) = false := by
    simp only [closingWords, List.mem_cons, List.not_mem_nil, or_false] at h
    rcases h with rfl | rfl | rfl <;> decide +kernel
  obtain ⟨hword, hif, hfor⟩ := hclosing
  refine ⟨marked_directive word rest, fun depth pos => ?_⟩
  have hchoice : choice (nestedTo depth) ⟨pos, directive word rest⟩ = .error .miss := by
    simp only [choice, bind_eq, get_eq, openTag_directive hword, keyword_miss hif]
  have hrepetition : repetition (nestedTo depth) ⟨pos, directive word rest⟩ = .error .miss := by
    simp only [repetition, bind_eq, get_eq, openTag_directive hword, keyword_miss hfor]
  simp only [rawElement_directive, located_eq, either_eq, hchoice, hrepetition]

/-- A text is read as a list of elements in front of what follows it. -/
def ReadsParts (text : Bytes) (parts : Template) (rest : Bytes) : Prop :=
  ∀ depth, text.length < depth → ∀ pos (fuel : Bytes), text.length ≤ fuel.length →
    ∃ read, manyWithin (rawElement depth) fuel ⟨pos, text ++ rest⟩ =
        .ok (read, ⟨pos + text.length, rest⟩) ∧
      Expr.bareElements (values read) = Expr.bareElements parts

/-- A text is read as an element in front of what follows it. -/
def ReadsPart (text : Bytes) (part : Element) (rest : Bytes) : Prop :=
  text ≠ [] ∧ ∀ depth, text.length < depth → ∀ pos,
    ∃ read, rawElement depth ⟨pos, text ++ rest⟩ = .ok (read, ⟨pos + text.length, rest⟩) ∧
      ∀ {others others' : Template}, Expr.bareElements others = Expr.bareElements others' →
        Expr.bareElements (read.value :: others) = Expr.bareElements (part :: others')

theorem Stops.readsParts {rest : Bytes} (h : Stops rest) : ReadsParts [] [] rest := by
  intro depth _ pos fuel _
  exact ⟨[], manyWithin_of_miss (h.2 depth pos) fuel, rfl⟩

theorem ReadsPart.cons {text text' rest : Bytes} {part : Element} {parts : Template}
    (hpart : ReadsPart text part (text' ++ rest)) (hparts : ReadsParts text' parts rest) :
    ReadsParts (text ++ text') (part :: parts) rest := by
  intro depth hdepth pos fuel hfuel
  have hpos : 0 < text.length := List.length_pos_of_ne_nil hpart.1
  rw [List.length_append] at hdepth hfuel
  obtain ⟨b, fuel, rfl⟩ := List.exists_cons_of_length_pos (show 0 < fuel.length by omega)
  rw [List.length_cons] at hfuel
  obtain ⟨read, hread, hbare⟩ := hpart.2 depth (by omega) pos
  obtain ⟨others, hothers, hbareOthers⟩ :=
    hparts depth (by omega) (pos + text.length) fuel (by omega)
  refine ⟨read :: others, ?_, hbare hbareOthers⟩
  rw [List.append_assoc, List.length_append, ← Nat.add_assoc]
  exact manyWithin_cons hread hothers b

/-- The body of a directive is read as the template that its text is read as. -/
theorem ReadsParts.body_eq {text rest : Bytes} {parts : Template} (h : ReadsParts text parts rest)
    {depth : Nat} (hdepth : text.length < depth) (pos : Nat) :
    ∃ read, (nestedTo (depth + 1)).body ⟨pos, text ++ rest⟩ =
        .ok (read, ⟨pos + text.length, rest⟩) ∧
      Expr.bareElements (values read) = Expr.bareElements parts :=
  h depth hdepth pos (text ++ rest) (by simp)

theorem readsPart_literal {text rest : Bytes} (h : inert text rest = true) (hrest : Marked rest)
    (hne : text ≠ []) : ReadsPart text (.literal (Text.ofBytes text)) rest := by
  refine ⟨hne, fun depth _ pos => ?_⟩
  simp only [rawElement, element, located_eq, either_eq, map_eq, rawText_inert h hrest hne]
  refine ⟨_, rfl, fun hothers => ?_⟩
  simp only [Expr.bareElements, hothers]

/-- A text is read as an expression, but for the layout, up to the brace that closes its tag. -/
structure ReadsBack (text : Bytes) (e : Expr) : Prop where
  firm : Firm text
  expr : ∀ depth, text.length ≤ depth → ∀ pos rest,
    ∃ read, (nestedTo (depth + 1)).expr false ⟨pos, text ++ Byte.closeBrace :: rest⟩ =
        .ok (read, ⟨pos + text.length, Byte.closeBrace :: rest⟩) ∧
      read.bare = e.bare

theorem ReadsBack.spaced_eq {text : Bytes} {e : Expr} (h : ReadsBack text e) {depth : Nat}
    (hdepth : text.length ≤ depth) (before : Gap) (rest : Bytes) (pos : Nat) :
    ∃ item, spaced (nestedTo (depth + 1)) ⟨pos, before.bytes ++ (text ++ Byte.closeBrace :: rest)⟩ =
        .ok (item, ⟨pos + before.bytes.length + text.length, Byte.closeBrace :: rest⟩) ∧
      item.value.bare = e.bare :=
  @spaced_bare _ _ _ before [] _ pos (h.firm.solid _) (closes_brace rest)
    (h.expr depth hdepth (pos + before.bytes.length) rest)

theorem readsPart_interpolation {text : Bytes} {e : Expr} (h : ReadsBack text e) (layout : Layout)
    (rest : Bytes) :
    ReadsPart (Byte.dollar :: Byte.openBrace :: (text ++ [Byte.closeBrace]))
      (.interpolation layout ⟨false, false⟩ e) rest := by
  refine ⟨List.cons_ne_nil _ _, fun depth hdepth pos => ?_⟩
  simp only [List.length_cons, List.length_append, List.length_nil] at hdepth
  obtain ⟨depth, rfl⟩ := Nat.exists_eq_succ_of_ne_zero (show depth ≠ 0 by omega)
  have hbytes : Byte.dollar :: Byte.openBrace :: (text ++ [Byte.closeBrace]) ++ rest =
      Byte.dollar :: Byte.openBrace :: (text ++ Byte.closeBrace :: rest) := by simp
  have hlength : pos + (Byte.dollar :: Byte.openBrace :: (text ++ [Byte.closeBrace])).length =
      pos + 2 + text.length + 1 := by
    simp only [List.length_cons, List.length_append, List.length_nil]
    omega
  have hmarked : Marked (Byte.dollar :: Byte.openBrace :: (text ++ Byte.closeBrace :: rest)) :=
    Or.inr ⟨Byte.dollar, _, rfl, Or.inl rfl⟩
  have hopen : exactly [Byte.dollar, Byte.openBrace]
      ⟨pos, Byte.dollar :: Byte.openBrace :: (text ++ Byte.closeBrace :: rest)⟩ =
      .ok (⟨⟩, ⟨pos + 2, text ++ Byte.closeBrace :: rest⟩) :=
    exactly_eq [Byte.dollar, Byte.openBrace] _ pos
  obtain ⟨item, hspaced, hbare⟩ := h.spaced_eq (show text.length ≤ depth by omega) [] rest (pos + 2)
  simp only [Gap.bytes, List.flatMap_nil, List.nil_append, List.length_nil, Nat.add_zero] at hspaced
  rw [hbytes, hlength]
  simp only [rawElement, element, located_eq, either_eq, map_eq, hmarked.rawText, interpolation,
    bind_eq, get_eq, hopen, h.firm.flag_eq, hspaced, closeTag_eq, layoutFrom_eq, pure_eq]
  refine ⟨_, rfl, fun hothers => ?_⟩
  simp only [Expr.bareElements, hbare, hothers]

theorem template?_of_readsParts {text : Bytes} {parts : Template} (h : ReadsParts text parts []) :
    ∃ read, template? text = some read ∧ Expr.bareElements read = Expr.bareElements parts := by
  obtain ⟨read, hread, hbare⟩ := h (text.length + 1) (Nat.lt_succ_self _) 0 text (Nat.le_refl _)
  rw [List.append_nil] at hread
  have hraw : rawTemplate (nestedTo (text.length + 1)) ⟨0, text⟩ =
      .ok (read, ⟨0 + text.length, []⟩) := hread
  refine ⟨values read, ?_, hbare⟩
  simp only [template?, whole?, nestedIn, hraw]
  rfl

/-! ### Directives -/

/-- What may stand in front of the end of a choice: nothing, or another branch. -/
def elseBranch (nested : Nested) : Parser (Option (Trim × List (Located Element))) :=
  Parser.optional do
    let trim ← wordTag "else"
    return (trim, ← nested.body)

/-- A text is read as the other branch of a choice, which may be missing. -/
def ReadsElse (text : Bytes) (no : Option Template) (rest : Bytes) : Prop :=
  ∀ depth, text.length ≤ depth → ∀ pos,
    ∃ read, elseBranch (nestedTo (depth + 1)) ⟨pos, text ++ directive "endif" rest⟩ =
        .ok (read, ⟨pos + text.length, directive "endif" rest⟩) ∧
      (read.map (·.1)).getD ⟨false, false⟩ = ⟨false, false⟩ ∧
      Expr.bareElse (read.map fun read => values read.2) = Expr.bareElse no

theorem readsElse_nil {no : Option Template} (h : Expr.bareElse no = none) (rest : Bytes) :
    ReadsElse [] no rest := by
  have hword : (Text.encode "else").length ≤ (Text.encode "endif").length ∧
      (Text.encode "else").isPrefixOf (Text.encode "endif") = false := by decide
  intro depth _ pos
  have hmiss := wordTag_miss (by decide : "endif" ∈ directiveWords) hword rest pos
  refine ⟨none, ?_, rfl, h.symm⟩
  rw [List.nil_append]
  simp only [elseBranch, optional_eq, bind_eq, hmiss]
  rfl

theorem bareElse_some {parts : Template} (h : parts ≠ []) :
    Expr.bareElse (some parts) = some (Expr.bareElements parts) := by
  cases parts with
  | nil => exact absurd rfl h
  | cons part rest => rfl

theorem bareElements_ne_nil {parts : Template} (h : parts ≠ []) : Expr.bareElements parts ≠ [] := by
  cases parts with
  | nil => exact absurd rfl h
  | cons part rest => cases part <;> exact List.cons_ne_nil _ _

theorem ReadsParts.readsElse {text rest : Bytes} {no : Template} (hne : no ≠ [])
    (h : ReadsParts text no (directive "endif" rest)) :
    ReadsElse (directive "else" (Byte.closeBrace :: text)) (some no) rest := by
  intro depth hdepth pos
  have hlength : (directive "else" (Byte.closeBrace :: text)).length =
      (directive "else" [Byte.closeBrace]).length + text.length := by
    simp only [directive, List.length_cons, List.length_append, List.length_nil]
    omega
  have hopen : 0 < (directive "else" [Byte.closeBrace]).length := Nat.succ_pos _
  obtain ⟨read, hbody, hbare⟩ := h.body_eq (show text.length < depth by omega)
    (pos + (directive "else" [Byte.closeBrace]).length)
  have htag := wordTag_eq (by decide : "else" ∈ directiveWords) (text ++ directive "endif" rest) pos
  refine ⟨some (⟨false, false⟩, read), ?_, rfl, ?_⟩
  · rw [directive_append, List.cons_append, hlength, ← Nat.add_assoc]
    simp only [elseBranch, optional_eq, bind_eq, htag, hbody, pure_eq]
  · have hread : values read ≠ [] := by
      intro hnil
      rw [hnil] at hbare
      exact bareElements_ne_nil hne hbare.symm
    rw [Option.map_some, bareElse_some hread, bareElse_some hne, hbare]

theorem choice_elseBranch (nested : Nested) :
    choice nested = do
      let start ← get
      let before ← openTag
      Parser.keyword "if"
      let condition ← spaced nested
      let after ← closeTag
      let yes ← nested.body
      let no ← elseBranch nested
      let endTrim ← wordTag "endif"
      let children := condition.span :: spans yes ++ (no.map fun no => spans no.2).getD []
      let elseTrim := (no.map (·.1)).getD ⟨false, false⟩
      return .choice (← layoutFrom start children) ⟨before, after⟩ elseTrim endTrim condition.value
        (values yes) (no.map fun no => values no.2) :=
  rfl

def choiceBytes (condition yes no : Bytes) : Bytes :=
  directive "if" (Byte.space :: (condition ++ Byte.closeBrace ::
    (yes ++ (no ++ directive "endif" [Byte.closeBrace]))))

theorem readsPart_choice {conditionText yesText noText rest : Bytes} {condition : Expr}
    {yes : Template} {no : Option Template} (hcondition : ReadsBack conditionText condition)
    (hyes : ReadsParts yesText yes (noText ++ directive "endif" (Byte.closeBrace :: rest)))
    (hno : ReadsElse noText no (Byte.closeBrace :: rest)) (layout : Layout) :
    ReadsPart (choiceBytes conditionText yesText noText)
      (.choice layout ⟨false, false⟩ ⟨false, false⟩ ⟨false, false⟩ condition yes no) rest := by
  refine ⟨List.cons_ne_nil _ _, fun depth hdepth pos => ?_⟩
  simp only [choiceBytes, directive, List.length_cons, List.length_append, List.length_nil] at hdepth
  obtain ⟨depth, rfl⟩ := Nat.exists_eq_succ_of_ne_zero (show depth ≠ 0 by omega)
  have hbytes : choiceBytes conditionText yesText noText ++ rest =
      directive "if" ([Byte.space] ++ (conditionText ++ Byte.closeBrace ::
        (yesText ++ (noText ++ directive "endif" (Byte.closeBrace :: rest))))) := by
    simp [choiceBytes, directive]
  have hlength : pos + (choiceBytes conditionText yesText noText).length =
      pos + 2 + (Text.encode "if").length + 1 + conditionText.length + 1 + yesText.length +
        noText.length + (directive "endif" [Byte.closeBrace]).length := by
    simp only [choiceBytes, directive, List.length_cons, List.length_append, List.length_nil]
    omega
  obtain ⟨item, hspaced, hbare⟩ := hcondition.spaced_eq (show conditionText.length ≤ depth by omega)
    [Blank.space] (yesText ++ (noText ++ directive "endif" (Byte.closeBrace :: rest)))
    (pos + 2 + (Text.encode "if").length)
  obtain ⟨readYes, hbody, hbareYes⟩ := hyes.body_eq (show yesText.length < depth by omega)
    (pos + 2 + (Text.encode "if").length + 1 + conditionText.length + 1)
  obtain ⟨readNo, helse, htrim, hbareNo⟩ := hno depth (by omega)
    (pos + 2 + (Text.encode "if").length + 1 + conditionText.length + 1 + yesText.length)
  have hend := wordTag_eq (by decide : "endif" ∈ directiveWords) rest
    (pos + 2 + (Text.encode "if").length + 1 + conditionText.length + 1 + yesText.length +
      noText.length)
  have hspace : Gap.bytes [Blank.space] = [Byte.space] := rfl
  simp only [hspace, List.length_singleton] at hspaced
  rw [hbytes, hlength, rawElement_directive]
  simp only [located_eq, either_eq, choice_elseBranch, bind_eq, get_eq,
    openTag_directive (by decide : "if" ∈ directiveWords), keyword_eq, hspaced, closeTag_eq,
    hbody, helse, hend, layoutFrom_eq, pure_eq, htrim]
  refine ⟨_, rfl, fun hothers => ?_⟩
  simp only [Expr.bareElements, hbare, hbareYes, hbareNo, hothers]

/-- A text that is an identifier as a whole. -/
def IsName (text : String) : Prop := ∃ name : Name, Text.encode text = name.bytes

theorem IsName.ident_eq {text : String} (h : IsName text) {rest : Bytes} (hrest : Apart rest)
    (pos : Nat) :
    ident ⟨pos, Text.encode text ++ rest⟩ =
      .ok (text, ⟨pos + (Text.encode text).length, rest⟩) := by
  obtain ⟨name, hname⟩ := h
  rw [hname, name.ident_eq hrest pos, ← hname, Text.ofBytes_encode]

theorem IsName.solid {text : String} (h : IsName text) (rest : Bytes) :
    Solid (Text.encode text ++ rest) := by
  obtain ⟨name, hname⟩ := h
  rw [hname]
  exact name.solid rest

def loopBytes (loop : Loop) : Bytes :=
  (match loop.key with
    | some key => Text.encode key ++ [Byte.comma, Byte.space]
    | none => []) ++ Text.encode loop.value

theorem solid_loopBytes {l : Loop} (hkey : ∀ key ∈ l.key, IsName key) (hvalue : IsName l.value)
    (rest : Bytes) : Solid (loopBytes l ++ rest) := by
  obtain ⟨key, value⟩ := l
  cases key with
  | none => exact hvalue.solid rest
  | some key =>
      rw [loopBytes, List.append_assoc, List.append_assoc]
      exact (hkey key rfl).solid _

theorem loop_eq {l : Loop} (hkey : ∀ key ∈ l.key, IsName key) (hvalue : IsName l.value)
    (rest : Bytes) (pos : Nat) :
    loop ⟨pos, loopBytes l ++ Byte.space :: (Text.encode "in" ++ rest)⟩ =
      .ok (l, ⟨pos + (loopBytes l).length + 1, Text.encode "in" ++ rest⟩) := by
  have hin := firm_encode (by decide : "in" ∈ directiveWords)
  have hspace : ∀ pos, blankLines ⟨pos, Byte.space :: (Text.encode "in" ++ rest)⟩ =
      .ok (⟨⟩, ⟨pos + 1, Text.encode "in" ++ rest⟩) :=
    @blankLines_gap [Blank.space] _ (hin.solid rest)
  have hapart : Apart (Byte.space :: (Text.encode "in" ++ rest)) := by
    intro b hb
    obtain rfl : Byte.space = b := by simpa using hb
    decide
  have hvalueEq := fun pos => hvalue.ident_eq hapart pos
  obtain ⟨key, value⟩ := l
  cases key with
  | none =>
      have hcomma : ∀ pos, byte Byte.comma ⟨pos, Text.encode "in" ++ rest⟩ = .error .miss := by
        intro pos
        have hbytes : Text.encode "in" = [0x69, 0x6E] := rfl
        refine byte_miss ?_
        rw [hbytes, List.cons_append, List.head?_cons]
        decide
      simp only [loop, loopBytes, List.nil_append, bind_eq, must_eq, hvalueEq, hspace, optional_eq,
        hcomma, pure_eq]
  | some key =>
      have hbytes : loopBytes ⟨some key, value⟩ ++ Byte.space :: (Text.encode "in" ++ rest) =
          Text.encode key ++ Byte.comma :: (Gap.bytes [Blank.space] ++ (Text.encode value ++
            Byte.space :: (Text.encode "in" ++ rest))) := by
        simp [loopBytes, Gap.bytes, Blank.bytes]
      have hlength : pos + (loopBytes ⟨some key, value⟩).length + 1 =
          pos + (Text.encode key).length + 1 + (Gap.bytes [Blank.space]).length +
            (Text.encode value).length + 1 := by
        simp only [loopBytes, Gap.bytes, Blank.bytes, List.flatMap_cons, List.flatMap_nil,
          List.length_append, List.length_cons, List.length_nil]
        omega
      have hcomma : ∀ text, Apart (Byte.comma :: text) := by
        intro text b hb
        obtain rfl : Byte.comma = b := by simpa using hb
        decide
      have hsolid : ∀ text, Solid (Byte.comma :: text) := fun text => (closes_comma text).solid
      have hnone : ∀ text pos, blankLines ⟨pos, Byte.comma :: text⟩ =
          .ok (⟨⟩, ⟨pos, Byte.comma :: text⟩) := fun text => @blankLines_gap [] _ (hsolid text)
      rw [hbytes, hlength]
      simp only [loop, bind_eq, must_eq, (hkey key rfl).ident_eq (hcomma _), hnone, optional_eq,
        byte_eq, blankLines_gap (hvalue.solid _), hvalueEq, hspace, pure_eq]

def repetitionBytes (loop : Loop) (collection body : Bytes) : Bytes :=
  directive "for" (Byte.space :: (loopBytes loop ++ Byte.space :: (Text.encode "in" ++
    Byte.space :: (collection ++ Byte.closeBrace ::
      (body ++ directive "endfor" [Byte.closeBrace])))))

theorem readsPart_repetition {collectionText bodyText rest : Bytes} {collection : Expr}
    {body : Template} {l : Loop} (hkey : ∀ key ∈ l.key, IsName key) (hvalue : IsName l.value)
    (hcollection : ReadsBack collectionText collection)
    (hbody : ReadsParts bodyText body (directive "endfor" (Byte.closeBrace :: rest)))
    (layout : Layout) :
    ReadsPart (repetitionBytes l collectionText bodyText)
      (.repetition layout ⟨false, false⟩ ⟨false, false⟩ l collection body) rest := by
  refine ⟨List.cons_ne_nil _ _, fun depth hdepth pos => ?_⟩
  simp only [repetitionBytes, directive, List.length_cons, List.length_append,
    List.length_nil] at hdepth
  obtain ⟨depth, rfl⟩ := Nat.exists_eq_succ_of_ne_zero (show depth ≠ 0 by omega)
  let text := collectionText ++ Byte.closeBrace :: (bodyText ++
    directive "endfor" (Byte.closeBrace :: rest))
  have hbytes : repetitionBytes l collectionText bodyText ++ rest =
      directive "for" (Byte.space :: (loopBytes l ++ Byte.space ::
        (Text.encode "in" ++ (Gap.bytes [Blank.space] ++ text)))) := by
    simp [repetitionBytes, directive, text, Gap.bytes, Blank.bytes]
  have hlength : pos + (repetitionBytes l collectionText bodyText).length =
      pos + 2 + (Text.encode "for").length + 1 + (loopBytes l).length + 1 +
        (Text.encode "in").length + 1 + collectionText.length + 1 + bodyText.length +
          (directive "endfor" [Byte.closeBrace]).length := by
    simp only [repetitionBytes, directive, List.length_cons, List.length_append, List.length_nil]
    omega
  have hword : ("for" : String) ∈ directiveWords := by decide
  have hif : (Text.encode "if").length ≤ (Text.encode "for").length ∧
      (Text.encode "if").isPrefixOf (Text.encode "for") = false := by decide
  have hmiss : ∀ text, choice (nestedTo (depth + 1)) ⟨pos, directive "for" text⟩ = .error .miss := by
    intro text
    simp only [choice, bind_eq, get_eq, openTag_directive hword, keyword_miss hif]
  have hspace : ∀ pos, blankLines ⟨pos, Byte.space :: (loopBytes l ++ Byte.space ::
      (Text.encode "in" ++ (Gap.bytes [Blank.space] ++ text)))⟩ =
      .ok (⟨⟩, ⟨pos + 1, loopBytes l ++ Byte.space ::
        (Text.encode "in" ++ (Gap.bytes [Blank.space] ++ text))⟩) :=
    @blankLines_gap [Blank.space] _ (solid_loopBytes hkey hvalue _)
  obtain ⟨item, hspaced, hbare⟩ := hcollection.spaced_eq
    (show collectionText.length ≤ depth by omega) [Blank.space]
    (bodyText ++ directive "endfor" (Byte.closeBrace :: rest))
    (pos + 2 + (Text.encode "for").length + 1 + (loopBytes l).length + 1 +
      (Text.encode "in").length)
  have hone : (Gap.bytes [Blank.space]).length = 1 := rfl
  simp only [hone] at hspaced
  obtain ⟨read, hread, hbareBody⟩ := hbody.body_eq (show bodyText.length < depth by omega)
    (pos + 2 + (Text.encode "for").length + 1 + (loopBytes l).length + 1 +
      (Text.encode "in").length + 1 + collectionText.length + 1)
  have hend := wordTag_eq (by decide : "endfor" ∈ directiveWords) rest
    (pos + 2 + (Text.encode "for").length + 1 + (loopBytes l).length + 1 +
      (Text.encode "in").length + 1 + collectionText.length + 1 + bodyText.length)
  rw [hbytes, hlength, rawElement_directive]
  simp only [located_eq, either_eq, hmiss, repetition, bind_eq, get_eq, openTag_directive hword,
    keyword_eq, hspace, loop_eq hkey hvalue, must_eq, text, hspaced, closeTag_eq, hread, hend,
    layoutFrom_eq, pure_eq]
  refine ⟨_, rfl, fun hothers => ?_⟩
  simp only [Expr.bareElements, hbare, hbareBody, hothers]

end HclToJson.Grammar
