import Mathlib.Data.List.Infix
import HclToJson.Grammar.Blank
import HclToJson.Proofs.Text.Squeeze
import HclToJson.Text.Identifier

namespace HclToJson.Comment

open Text

/-- Two bytes that are parts of one token where nothing stands between them. -/
def Joins (b c : UInt8) : Prop :=
  (isIdentContinue b = true ∧ isIdentContinue c = true) ∨
    (Byte.isDigit b = true ∧ c = Byte.dot) ∨ (b = Byte.dot ∧ Byte.isDigit c = true)

instance decidableJoins (b c : UInt8) : Decidable (Joins b c) :=
  inferInstanceAs (Decidable (_ ∨ _))

/-- Code goes on with the word `for` at the end of a line, behind blanks and comments. -/
def EndsInFor (spot : Spot) (text : Bytes) : Prop :=
  ∃ word ∈ text.tails,
    ((encode "for" ++ [Byte.newline]).isPrefixOf word = true ∨
      (encode "for" ++ [Byte.carriageReturn]).isPrefixOf word = true) ∧
    (uncommented spot text).dropWhile Byte.isBlank = uncommented spot word

instance decidableEndsInFor (spot : Spot) (text : Bytes) : Decidable (EndsInFor spot text) :=
  inferInstanceAs (Decidable (∃ word ∈ text.tails, _))

namespace Spot

/-- A byte that means the same, with `after` behind it, when the comments are removed and white
space is a single space: what a comment alone keeps apart is apart without it, no word `for` that
opens brackets is at the end of its line, and the white space behind a backslash of a string is one
byte. In code white space is that of the grammar, and a line comment has no line end within it. -/
def Parts : Spot → UInt8 → Bytes → Prop
  | within (.code braces) outer, b, after =>
      let spot := (within (.code braces) outer).next b after
      let behind := uncommented spot after
      (0 < whiteLength (b :: behind) → Byte.isBlank b = true) ∧
      (behind.head? = after.head? ∨ ∀ c ∈ behind.head?, ¬ Joins b c) ∧
      (b = Byte.openBracket ∨ b = Byte.openBrace → ¬ EndsInFor spot after)
  | within .string _, b, after =>
      b = Byte.backslash →
        whiteLength after = 0 ∨ whiteLength after = 1 ∧ whiteLength after.tail = 0
  | lineComment .., b, after => b = Byte.carriageReturn → after.head? = some Byte.newline
  | _, _, _ => True

instance decidableParts : (spot : Spot) → (b : UInt8) → (after : Bytes) →
    Decidable (spot.Parts b after)
  | within (.code _) _, _, _ => inferInstanceAs (Decidable (_ ∧ _))
  | within .string _, _, _ => inferInstanceAs (Decidable (_ → _))
  | lineComment .., _, _ => inferInstanceAs (Decidable (_ → _))
  | within .body _, _, _ | escaped _, _, _ | marker .., _, _ | blockOpening .., _, _ |
      blockComment .., _, _ | blockClosing .., _, _ => inferInstanceAs (Decidable True)

end Spot

def PartsFrom : Spot → Bytes → Prop
  | _, [] => True
  | spot, b :: rest => spot.Parts b rest ∧ PartsFrom (spot.next b rest) rest

instance decidablePartsFrom : (spot : Spot) → (text : Bytes) → Decidable (PartsFrom spot text)
  | _, [] => inferInstanceAs (Decidable True)
  | spot, b :: rest =>
      have := decidablePartsFrom (spot.next b rest) rest
      inferInstanceAs (Decidable (_ ∧ _))

/-- A text whose tokens are the same when its comments are removed, and the white space squeezed. -/
structure Fit (spot : Spot) (text : Bytes) : Prop where
  agrees : AgreesFrom spot text
  parts : PartsFrom spot text

instance decidableFit (spot : Spot) (text : Bytes) : Decidable (Fit spot text) :=
  decidable_of_iff (AgreesFrom spot text ∧ PartsFrom spot text)
    ⟨fun h => ⟨h.1, h.2⟩, fun h => ⟨h.agrees, h.parts⟩⟩

/-- From a spot of a text to a later one, with what is left of the text between them. -/
structure Passes (spot : Spot) (text left : Bytes) (spot' : Spot) (text' : Bytes) : Prop where
  fit : Fit spot' text'
  uncommented : uncommented spot text = left ++ uncommented spot' text'

section

variable {spot spot' spot'' : Spot} {b : UInt8} {text text' text'' rest left left' : Bytes}
  {frame : Frame} {outer : List Frame} {braces : Nat}

theorem Fit.tail (h : Fit spot (b :: rest)) : Fit (spot.next b rest) rest :=
  ⟨h.agrees.2, h.parts.2⟩

theorem Passes.refl (h : Fit spot text) : Passes spot text [] spot text := ⟨h, rfl⟩

theorem Passes.trans (h : Passes spot text left spot' text')
    (h' : Passes spot' text' left' spot'' text'') :
    Passes spot text (left ++ left') spot'' text'' :=
  ⟨h'.fit, by rw [h.uncommented, h'.uncommented, List.append_assoc]⟩

theorem Fit.passes (h : Fit spot (b :: rest)) :
    Passes spot (b :: rest) (spot.left b rest) (spot.next b rest) rest :=
  ⟨h.tail, uncommented_cons spot b rest⟩

theorem Fit.passes_kept (h : Fit spot (b :: rest)) (hkeeps : spot.keeps b rest = true) :
    Passes spot (b :: rest) [b] (spot.next b rest) rest := by
  have hleft : spot.left b rest = [b] := if_pos hkeeps
  exact hleft ▸ h.passes

theorem Fit.passes_dropped (h : Fit spot (b :: rest)) (hkeeps : spot.keeps b rest = false) :
    Passes spot (b :: rest) [] (spot.next b rest) rest := by
  have hleft : spot.left b rest = [] := if_neg (by simp [hkeeps])
  exact hleft ▸ h.passes

theorem keeps_code (hopens : ¬ Opens b rest) :
    (Spot.within (.code braces) outer).keeps b rest = true := by
  simp [Spot.keeps, hopens]

theorem Fit.passes_code (h : Fit (.within (.code braces) outer) (b :: rest))
    (hopens : ¬ Opens b rest) :
    Passes (.within (.code braces) outer) (b :: rest) [b]
      ((Spot.within (.code braces) outer).next b rest) rest :=
  h.passes_kept (keeps_code hopens)

/-- A byte that neither opens nor closes anything in code. -/
abbrev Flat (b : UInt8) : Prop :=
  b ≠ Byte.quote ∧ b ≠ Byte.openBrace ∧ b ≠ Byte.closeBrace ∧ b ≠ Byte.hash ∧ b ≠ Byte.slash

theorem next_flat (hb : b ≠ Byte.quote ∧ b ≠ Byte.openBrace ∧ b ≠ Byte.closeBrace)
    (hopens : ¬ Opens b rest) :
    (Spot.within (.code braces) outer).next b rest = .within (.code braces) outer := by
  rw [Spot.next_code hopens, if_neg hb.1, if_neg hb.2.1, if_neg hb.2.2]

theorem Flat.not_opens (hb : Flat b) : ¬ Opens b rest :=
  fun hopens => hopens.eq_hash_or_slash.elim hb.2.2.2.1 hb.2.2.2.2

/-- Code goes on behind a byte that neither opens nor closes anything. -/
theorem Fit.passes_flat (h : Fit (.within (.code braces) outer) (b :: rest)) (hb : Flat b) :
    Passes (.within (.code braces) outer) (b :: rest) [b] (.within (.code braces) outer) rest := by
  have hpasses := h.passes_code hb.not_opens
  rwa [next_flat ⟨hb.1, hb.2.1, hb.2.2.1⟩ hb.not_opens] at hpasses

theorem Flat.of_isBlank (hb : Byte.isBlank b = true) : Flat b := by
  have hall : ∀ b : UInt8, Byte.isBlank b = true → b ≠ Byte.quote ∧ b ≠ Byte.openBrace ∧
      b ≠ Byte.closeBrace ∧ b ≠ Byte.hash ∧ b ≠ Byte.slash :=
    Byte.forall_of_lt (by decide +kernel)
  exact hall b hb

/-! ### What squeezing makes of code -/

theorem whiteLength_isBlank (hb : Byte.isBlank b = true) (rest : Bytes) :
    whiteLength (b :: rest) = 1 := by
  have hall : ∀ b : UInt8, Byte.isBlank b = true → b < 0x80 ∧ isBlank (Char.ofNat b.toNat) = true :=
    Byte.forall_of_lt (by decide +kernel)
  rw [whiteLength_ascii (hall b hb).1, if_pos (hall b hb).2]

theorem whiteLength_token {b : UInt8} (hb : b < 0x80 ∧ isBlank (Char.ofNat b.toNat) = false)
    (rest : Bytes) : whiteLength (b :: rest) = 0 := by
  rw [whiteLength_ascii hb.1, hb.2]
  rfl

theorem squeeze_isBlank (hb : Byte.isBlank b = true) (rest : Bytes) :
    squeeze (b :: rest) = squeeze rest := by
  have hlength := whiteLength_isBlank hb rest
  rw [squeeze_white (by omega), hlength, Nat.sub_self, List.drop_zero]

theorem squeeze_blanks {blanks : Bytes} (h : ∀ b ∈ blanks, Byte.isBlank b = true) (rest : Bytes) :
    squeeze (blanks ++ rest) = squeeze rest := by
  induction blanks with
  | nil => rfl
  | cons b blanks ih =>
      rw [List.cons_append, squeeze_isBlank (h b List.mem_cons_self),
        ih fun c hc => h c (List.mem_cons_of_mem b hc)]

theorem squeezeBehind_cases (text : Bytes) :
    squeezeBehind text = squeeze text ∨ squeezeBehind text = Byte.space :: squeeze text := by
  rw [squeezeBehind]
  split
  · exact Or.inl rfl
  · exact Or.inr rfl

theorem head?_squeezeBehind (text : Bytes) :
    (squeezeBehind text).head? = none ∨ (squeezeBehind text).head? = some Byte.space ∨
      (squeezeBehind text).head? = text.head? := by
  cases text with
  | nil => exact Or.inl (by rw [squeezeBehind_nil, List.head?_nil])
  | cons b rest =>
      by_cases hwhite : whiteLength (b :: rest) = 0
      · rw [squeezeBehind_inked hwhite]
        exact Or.inr (Or.inr rfl)
      · rw [squeezeBehind]
        by_cases hempty : squeeze (b :: rest) = []
        · rw [if_pos (Or.inr hempty), hempty]
          exact Or.inl rfl
        · rw [if_neg (not_or.mpr ⟨hwhite, hempty⟩)]
          exact Or.inr (Or.inl rfl)

theorem head?_uncommented_lineComment (text : Bytes) :
    ∀ c ∈ (uncommented (.lineComment braces outer) text).head?, c = Byte.newline := by
  induction text with
  | nil => simp [uncommented]
  | cons b rest ih =>
      intro c hc
      by_cases hb : b = Byte.newline
      · simp [uncommented, Spot.keeps, hb] at hc
        exact hc.symm
      · simp [uncommented, Spot.keeps, Spot.next, hb] at hc
        exact ih c hc

/-- Behind a slash that opens no comment, none is opened by what is left of the text. -/
theorem not_opens_slash (h : ¬ Opens Byte.slash rest) :
    ¬ Opens Byte.slash (squeezeBehind (uncommented (.within (.code braces) outer) rest)) := by
  have hopens : ∀ text, Opens Byte.slash text ↔
      text.head? = some Byte.slash ∨ text.head? = some Byte.star := by
    intro text
    have hne : Byte.slash ≠ Byte.hash := by decide
    simp [Opens, opensLine, hne]
  rw [hopens] at h ⊢
  have hleft : ∀ c, (uncommented (.within (.code braces) outer) rest).head? = some c →
      c = Byte.slash ∨ c = Byte.star → False := by
    intro c hc hmark
    cases rest with
    | nil => simp [uncommented] at hc
    | cons d rest =>
        by_cases hd : Opens d rest
        · rcases hd.eq_hash_or_slash with rfl | rfl
          · rw [uncommented, if_neg (by simp [Spot.keeps, hd]), Spot.next,
              if_neg fun hblock => absurd hblock.1 (by decide), if_pos (by simp [opensLine])] at hc
            have hnewline := head?_uncommented_lineComment rest c hc
            rcases hmark with rfl | rfl <;> exact absurd hnewline (by decide)
          · exact h (Or.inl rfl)
        · rw [uncommented, if_pos (keeps_code hd)] at hc
          obtain rfl : d = c := by simpa using hc
          exact h (hmark.imp (congrArg some) (congrArg some))
  rcases head?_squeezeBehind (uncommented (.within (.code braces) outer) rest) with
    hhead | hhead | hhead
  · simp [hhead]
  · rw [hhead]
    exact fun hmark => by rcases hmark with hmark | hmark <;> exact absurd hmark (by decide)
  · rw [hhead]
    rintro (hmark | hmark)
    · exact hleft _ hmark (Or.inl rfl)
    · exact hleft _ hmark (Or.inr rfl)

/-- A spot in code, or in a comment of code. -/
def Spot.InCode : Spot → Prop
  | within (.code _) _ | lineComment .. | blockOpening .. | blockComment .. | blockClosing .. =>
      True
  | _ => False

/-- A text that starts with neither a blank nor a comment. -/
def Settled (text : Bytes) : Prop :=
  ∀ b ∈ text.head?, Byte.isBlank b = false ∧ ¬ Opens b text.tail

theorem Fit.inked (h : Fit (.within (.code braces) outer) (b :: rest))
    (hb : Byte.isBlank b = false) :
    whiteLength (b :: uncommented ((Spot.within (.code braces) outer).next b rest) rest) = 0 :=
  Nat.eq_zero_of_not_pos fun hpos => by simp [h.parts.1.1 hpos] at hb

theorem Spot.InCode.next (h : spot.InCode) (hkeeps : spot.keeps b rest = false) :
    (spot.next b rest).InCode := by
  cases spot with
  | within frame outer =>
      cases frame with
      | code braces =>
          have hopens : Opens b rest := not_not.mp (of_decide_eq_false hkeeps)
          rw [Spot.next]
          by_cases hblock : b = Byte.slash ∧ rest.head? = some Byte.star
          · rw [if_pos hblock]
            trivial
          · rw [if_neg hblock, if_pos (hopens.resolve_right hblock)]
            trivial
      | _ => exact h.elim
  | lineComment braces outer =>
      have hb : b ≠ Byte.newline := by simpa [Spot.keeps] using hkeeps
      rw [Spot.next, if_neg hb]
      trivial
  | blockOpening braces outer | blockClosing braces outer => trivial
  | blockComment braces outer =>
      rw [Spot.next]
      split <;> trivial
  | _ => exact h.elim

/-- A byte of code that is no comment's opens none in the squeezed text. -/
theorem Fit.settled_cons (h : Fit (.within (.code braces) outer) (b :: rest))
    (hopens : ¬ Opens b rest) (hblank : Byte.isBlank b = false) :
    Settled (squeeze (uncommented (.within (.code braces) outer) (b :: rest))) := by
  rw [(h.passes_code hopens).uncommented, List.singleton_append, squeeze_inked (h.inked hblank)]
  intro c hc
  obtain rfl : b = c := by simpa using hc
  refine ⟨hblank, fun hbehind => ?_⟩
  rw [List.tail_cons] at hbehind
  rcases hbehind.eq_hash_or_slash with rfl | rfl
  · exact hopens (Or.inl rfl)
  · rw [next_flat (by decide) hopens] at hbehind
    exact not_opens_slash hopens hbehind

theorem Fit.settled (h : Fit spot text) (hspot : spot.InCode) :
    Settled (squeeze (uncommented spot text)) := by
  induction text generalizing spot with
  | nil =>
      intro b hb
      simp [uncommented] at hb
  | cons b rest ih =>
      cases hkeeps : spot.keeps b rest with
      | false =>
          rw [(h.passes_dropped hkeeps).uncommented]
          exact ih h.tail (hspot.next hkeeps)
      | true =>
          have hpasses := h.passes_kept hkeeps
          cases spot with
          | within frame outer =>
              cases frame with
              | code braces =>
                  have hopens : ¬ Opens b rest := of_decide_eq_true hkeeps
                  cases hblank : Byte.isBlank b with
                  | false => exact h.settled_cons hopens hblank
                  | true =>
                      rw [hpasses.uncommented, List.singleton_append, squeeze_isBlank hblank]
                      have hflat := Flat.of_isBlank hblank
                      refine ih h.tail ?_
                      rw [next_flat ⟨hflat.1, hflat.2.1, hflat.2.2.1⟩ hopens]
                      trivial
              | _ => exact hspot.elim
          | lineComment braces outer =>
              obtain rfl : b = Byte.newline := by simpa [Spot.keeps] using hkeeps
              rw [hpasses.uncommented, List.singleton_append, squeeze_isBlank rfl]
              exact ih h.tail trivial
          | blockOpening braces outer | blockComment braces outer | blockClosing braces outer =>
              cases hkeeps
          | _ => exact hspot.elim

end

end HclToJson.Comment
