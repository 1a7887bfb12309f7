import HclToJson.Proofs.Decimal.Text
import HclToJson.Proofs.Json.Layout
import HclToJson.Text.Blank
import Mathlib.Data.List.Forall2

namespace HclToJson.Json

/-- Where a character of a JSON text stands. -/
inductive Place
  | outside
  | string
  /-- Behind a backslash in a string. -/
  | escape

def Place.next : Place → Char → Place
  | outside, c => if c = '"' then string else outside
  | string, c => if c = '"' then outside else if c = '\\' then escape else string
  | escape, _ => string

def Place.drops : Place → Char → Bool
  | outside, c => Text.isBlank c
  | string, _ | escape, _ => false

def unspacedFrom (place : Place) : List Char → List Char
  | [] => []
  | c :: rest =>
      if place.drops c then unspacedFrom (place.next c) rest
      else c :: unspacedFrom (place.next c) rest

/-- A JSON text without the white space outside of its strings. -/
def unspaced (text : String) : String :=
  String.ofList (unspacedFrom .outside text.toList)

/-- Wherever a text stands outside of strings, this is what is kept of it. -/
def Keeps (text kept : List Char) : Prop :=
  ∀ rest, unspacedFrom .outside (text ++ rest) = kept ++ unspacedFrom .outside rest

/-- A character that is kept where it stands outside of strings, and opens none. -/
def Visible (c : Char) : Prop := c ≠ '"' ∧ Text.isBlank c = false

instance (c : Char) : Decidable (Visible c) := inferInstanceAs (Decidable (_ ∧ _))

theorem visible_of_all {text : List Char} (h : text.all (decide <| Visible ·) = true) :
    ∀ c ∈ text, Visible c :=
  fun c hc => of_decide_eq_true (List.all_eq_true.mp h c hc)

namespace Keeps

theorem append {front back frontKept backKept : List Char} (hfront : Keeps front frontKept)
    (hback : Keeps back backKept) : Keeps (front ++ back) (frontKept ++ backKept) := by
  intro rest
  rw [List.append_assoc, hfront, hback, List.append_assoc]

theorem visible {text : List Char} (h : ∀ c ∈ text, Visible c) : Keeps text text := by
  intro rest
  induction text with
  | nil => rfl
  | cons c text ih =>
      obtain ⟨⟨hquote, hblank⟩, htext⟩ := List.forall_mem_cons.mp h
      simp only [List.cons_append, unspacedFrom, Place.drops, Place.next, hblank, hquote,
        ↓reduceIte, Bool.false_eq_true, ih htext]

theorem blank {gap : List Char} (h : Blank gap) : Keeps gap [] := by
  intro rest
  induction gap with
  | nil => rfl
  | cons c gap ih =>
      obtain ⟨hc, hgap⟩ := List.forall_mem_cons.mp h
      rcases hc with rfl | rfl | rfl | rfl
      all_goals exact ih hgap

end Keeps

section Strings

theorem unspacedFrom_plain {text : List Char} (h : ∀ c ∈ text, c ≠ '"' ∧ c ≠ '\\')
    (rest : List Char) :
    unspacedFrom .string (text ++ rest) = text ++ unspacedFrom .string rest := by
  induction text with
  | nil => rfl
  | cons c text ih =>
      obtain ⟨⟨hquote, hbackslash⟩, htext⟩ := List.forall_mem_cons.mp h
      simp only [List.cons_append, unspacedFrom, Place.drops, Place.next, hquote, hbackslash,
        ↓reduceIte, Bool.false_eq_true, ih htext]

theorem digitChar_plain : ∀ n < 16, n.digitChar ≠ '"' ∧ n.digitChar ≠ '\\' := by decide

theorem unspacedFrom_escapeLower (c : Char) (rest : List Char) :
    unspacedFrom .string (Text.escapeLower c ++ rest) =
      Text.escapeLower c ++ unspacedFrom .string rest := by
  rcases escapeLower_cases c with ⟨d, -, hescape⟩ | ⟨hcontrol, hescape⟩ |
    ⟨-, hquote, hbackslash, hescape⟩
  · rw [hescape]
    rfl
  · have hhigh := digitChar_plain (c.toNat / 16) (by omega)
    have hlow := digitChar_plain (c.toNat % 16) (by omega)
    have hdigits : ∀ d ∈ ['0', '0', (c.toNat / 16).digitChar, (c.toNat % 16).digitChar],
        d ≠ '"' ∧ d ≠ '\\' := by
      simp only [List.forall_mem_cons]
      exact ⟨by decide, by decide, hhigh, hlow, nofun⟩
    rw [hescape]
    exact congrArg (fun kept => '\\' :: 'u' :: kept) (unspacedFrom_plain hdigits rest)
  · rw [hescape]
    exact unspacedFrom_plain (List.forall_mem_singleton.mpr ⟨hquote, hbackslash⟩) rest

theorem Keeps.quoted (text : String) : Keeps (quoted text) (quoted text) := by
  intro rest
  have hchars (chars : List Char) :
      unspacedFrom .string (chars.flatMap Text.escapeLower ++ '"' :: rest) =
        chars.flatMap Text.escapeLower ++ '"' :: unspacedFrom .outside rest := by
    induction chars with
    | nil => rfl
    | cons c chars ih =>
        rw [List.flatMap_cons, List.append_assoc, unspacedFrom_escapeLower, ih, List.append_assoc]
  rw [quoted_append, quoted_append, ← hchars]
  rfl

end Strings

section Numbers

theorem isBlank_of_isDigit {c : Char} (h : c.isDigit = true) : Text.isBlank c = false := by
  have hrange : 48 ≤ c.toNat ∧ c.toNat ≤ 57 := by
    simpa [Char.isDigit, UInt32.le_iff_toNat_le] using h
  simp [Text.isBlank, Text.blankRanges]
  omega

theorem visible_floatFormat : Decimal.Formatted floatFormat Visible where
  digit c hc := by
    constructor
    · rintro rfl
      exact absurd hc (by decide)
    · exact isBlank_of_isDigit hc
  minus := by decide
  point := by decide
  exponent := by decide
  plus := visible_of_all rfl
  nan := visible_of_all rfl
  infinity := visible_of_all rfl
  negativeInfinity := visible_of_all rfl

end Numbers

section Containers

variable {style : Style} {elements kept : List (List Char)}

theorem Keeps.separated {gap : List Char} (hgap : Blank gap)
    (h : List.Forall₂ Keeps elements kept) :
    Keeps (separated gap elements) (separated [] kept) := by
  induction h with
  | nil => exact fun _ => rfl
  | @cons element keptElement others keptOthers helement hothers ih =>
      cases hothers with
      | nil =>
          rw [separated_singleton, separated_singleton]
          exact (Keeps.blank hgap).append helement
      | cons hnext hmore =>
          rw [separated_cons _ (List.cons_ne_nil _ _), separated_cons _ (List.cons_ne_nil _ _)]
          have hcomma : Keeps [','] [','] := .visible (visible_of_all rfl)
          exact (Keeps.blank hgap).append (helement.append (hcomma.append ih))

theorem Keeps.bracket (hstyle : style.Blank) {opening closing : Char} (hopening : Visible opening)
    (hclosing : Visible closing) (h : List.Forall₂ Keeps elements kept) (level : Nat) :
    Keeps (bracket style level opening closing elements)
      (bracket .compact level opening closing kept) := by
  have hopen : Keeps [opening] [opening] := .visible (List.forall_mem_singleton.mpr hopening)
  have hclose : Keeps [closing] [closing] := .visible (List.forall_mem_singleton.mpr hclosing)
  have hseparated := Keeps.separated (hstyle.newline (level + 1)) h
  have hlayout := Keeps.blank (hstyle.newline level)
  cases h with
  | nil => exact hopen.append hclose
  | cons helement hothers =>
      rw [bracket_eq _ _ _ (List.cons_ne_nil _ _), bracket_eq _ _ _ (List.cons_ne_nil _ _)]
      exact hopen.append (hseparated.append (hlayout.append hclose))

end Containers

section Values

variable {style : Style}

mutual

theorem Keeps.text (hstyle : style.Blank) : (value : Value) → (level : Nat) →
    Keeps (text style level value) (text .compact level value)
  | .null, _ => @Keeps.visible "null".toList (visible_of_all rfl)
  | .boolean true, _ => @Keeps.visible "true".toList (visible_of_all rfl)
  | .boolean false, _ => @Keeps.visible "false".toList (visible_of_all rfl)
  | .integer n, _ => Keeps.visible (visible_floatFormat.intText n.toInt)
  | .decimal x, _ => Keeps.visible (visible_floatFormat.floatText x)
  | .string s, _ => Keeps.quoted s
  | .array items, level =>
      Keeps.bracket hstyle (by decide) (by decide) (keeps_itemTexts hstyle items (level + 1)) level
  | .object entries, level =>
      Keeps.bracket hstyle (by decide) (by decide) (keeps_entryTexts hstyle entries (level + 1))
        level

theorem keeps_itemTexts (hstyle : style.Blank) : (items : List Value) → (level : Nat) →
    List.Forall₂ Keeps (itemTexts style level items) (itemTexts .compact level items)
  | [], _ => .nil
  | item :: rest, level => .cons (Keeps.text hstyle item level) (keeps_itemTexts hstyle rest level)

theorem keeps_entryTexts (hstyle : style.Blank) : (entries : List (String × Value)) →
    (level : Nat) →
    List.Forall₂ Keeps (entryTexts style level entries) (entryTexts .compact level entries)
  | [], _ => .nil
  | (key, value) :: rest, level => by
      have hcolon : Keeps [':'] [':'] := .visible (visible_of_all rfl)
      have hgap := hcolon.append (Keeps.blank hstyle.gap)
      have hentry := ((Keeps.quoted key).append hgap).append (Keeps.text hstyle value level)
      exact .cons hentry (keeps_entryTexts hstyle rest level)

end

/-- The text of a value with one line per element has the white space that the text on one line
lacks, and differs in nothing else. -/
theorem unspaced_pretty (value : Value) : unspaced (pretty value ++ "\n") = compact value := by
  have hend : Keeps "\n".toList [] := .blank (List.forall_mem_singleton.mpr (.inr (.inl rfl)))
  have hboth := (Keeps.text Style.blank_pretty value 0).append hend []
  rw [List.append_nil, List.append_nil] at hboth
  rw [unspaced, String.toList_append, pretty, String.toList_ofList, hboth]
  exact congrArg String.ofList (List.append_nil _)

end Values

end HclToJson.Json
