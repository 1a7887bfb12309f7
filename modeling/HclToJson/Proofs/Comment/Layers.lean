import HclToJson.Grammar.Blank
import HclToJson.Proofs.Comment.NormalForm

/-!
The comments of a text by the grammar of the language, in which strings have interpolations and tags
with code and strings of their own. They are the comments of the parser: what its separators pass
over in code is white space and what is dropped here (`Grammar.separator_passes`). The removal of
comments sees only one layer: to it each quote starts a string or ends one. So it takes for a string
what an odd number of strings is open around, and agrees with the grammar where that makes no
difference.
-/

namespace HclToJson.Comment

/-- What a part of a text is: code, in which a number of braces is open; a quoted string; or the
body of a directive, in which quotes and backslashes are text. -/
inductive Frame
  | code (braces : Nat)
  | string
  | body
  deriving DecidableEq

/-- What a reader of the language is in, with the frames around that from the inside out. -/
inductive Spot
  | within (frame : Frame) (outer : List Frame)
  /-- In a string, behind a backslash. -/
  | escaped (outer : List Frame)
  /-- Before the last byte of a marker, behind which the frame goes on. -/
  | marker (frame : Frame) (outer : List Frame)
  | lineComment (braces : Nat) (outer : List Frame)
  /-- Behind the first byte of the delimiter that opens a block comment. -/
  | blockOpening (braces : Nat) (outer : List Frame)
  | blockComment (braces : Nat) (outer : List Frame)
  /-- Behind the first byte of the delimiter that closes it. -/
  | blockClosing (braces : Nat) (outer : List Frame)

/-- A tag from its word on, behind the mark for trimming, white space and comments. -/
def tagWord (tag : Bytes) : Bytes :=
  let code := if tag.head? = some Byte.tilde then tag.tail else tag
  code.drop (Grammar.blankLength true code code)

/-- The frames around the code of a tag that stands in a frame. What the tag starts, or goes on
with, is behind it a body, and what it ends is not. -/
def framesBehindTag (frame : Frame) (outer : List Frame) (tag : Bytes) : List Frame :=
  if (Text.encode "if").isPrefixOf (tagWord tag) ∨ (Text.encode "for").isPrefixOf (tagWord tag) then
    .body :: frame :: outer
  else if frame = .body ∧ (Text.encode "end").isPrefixOf (tagWord tag) then outer
  else frame :: outer

namespace Spot

def leave : List Frame → Spot
  | [] => within (.code 0) []
  | frame :: outer => within frame outer

/-- Behind a closing brace of code. -/
def close : Nat → List Frame → Spot
  | 0, outer => leave outer
  | braces + 1, outer => within (.code braces) outer

/-- Behind a byte of a template that is neither a quote nor a backslash of a string. -/
def nextInTemplate (frame : Frame) (outer : List Frame) (b : UInt8) (after : Bytes) : Spot :=
  if b = Byte.dollar ∨ b = Byte.percent then
    if [b, Byte.openBrace].isPrefixOf after then marker frame outer
    else if after.head? = some Byte.openBrace then
      marker (.code 0)
        (if b = Byte.percent then framesBehindTag frame outer after.tail else frame :: outer)
    else within frame outer
  else within frame outer

def next : Spot → UInt8 → Bytes → Spot
  | within (.code braces) outer, b, after =>
      if b = Byte.slash ∧ after.head? = some Byte.star then blockOpening braces outer
      else if opensLine b after then lineComment braces outer
      else if b = Byte.quote then within .string (.code braces :: outer)
      else if b = Byte.openBrace then within (.code (braces + 1)) outer
      else if b = Byte.closeBrace then close braces outer
      else within (.code braces) outer
  | within .string outer, b, after =>
      if b = Byte.quote then leave outer
      else if b = Byte.backslash then escaped outer
      else nextInTemplate .string outer b after
  | within .body outer, b, after => nextInTemplate .body outer b after
  | escaped outer, _, _ => within .string outer
  | marker frame outer, _, _ => within frame outer
  | lineComment braces outer, b, _ =>
      if b = Byte.newline then within (.code braces) outer else lineComment braces outer
  | blockOpening braces outer, _, _ => blockComment braces outer
  | blockComment braces outer, b, after =>
      if b = Byte.star ∧ after.head? = some Byte.slash then blockClosing braces outer
      else blockComment braces outer
  | blockClosing braces outer, _, _ => within (.code braces) outer

/-- Whether a byte is none of a comment. -/
def keeps : Spot → UInt8 → Bytes → Bool
  | within (.code _) _, b, after => ¬ Opens b after
  | within .string _, _, _ | within .body _, _, _ | escaped _, _, _ | marker .., _, _ => true
  | lineComment .., b, _ => b = Byte.newline
  | blockOpening .., _, _ | blockComment .., _, _ | blockClosing .., _, _ => false

end Spot

/-- A text without the comments that it has by the grammar, from a spot on. -/
def uncommented : Spot → Bytes → Bytes
  | _, [] => []
  | spot, b :: rest =>
      if spot.keeps b rest then b :: uncommented (spot.next b rest) rest
      else uncommented (spot.next b rest) rest

/-- Whether an odd number of strings is open. -/
def quoted : List Frame → Bool
  | [] => false
  | .string :: outer => !quoted outer
  | _ :: outer => quoted outer

namespace Spot

/-- A byte at which the removal of comments and the grammar agree, with `after` behind it: on what
closes a string, and on whether a comment may open. -/
def Agrees : Spot → UInt8 → Bytes → Prop
  | within frame outer, b, after =>
      (b = Byte.newline → quoted (frame :: outer) = false) ∧
      (b = Byte.apostrophe → quoted (frame :: outer) = true) ∧
      (b = Byte.backslash → (quoted (frame :: outer) = true ↔ frame = .string)) ∧
      (b = Byte.quote → frame ≠ .body) ∧
      (Opens b after → (quoted (frame :: outer) = true ↔ frame = .string ∨ frame = .body)) ∧
      (b = Byte.less → frame = .string ∨ frame = .body ∨ after.head? ≠ some Byte.less)
  | escaped outer, b, _ => quoted outer = false ∧ b ≠ Byte.newline
  | marker .., b, _ => b = Byte.dollar ∨ b = Byte.percent ∨ b = Byte.openBrace
  | lineComment _ outer, _, _ | blockOpening _ outer, _, _ | blockComment _ outer, _, _ |
      blockClosing _ outer, _, _ => quoted outer = false

instance decidableAgrees : (spot : Spot) → (b : UInt8) → (after : Bytes) →
    Decidable (spot.Agrees b after)
  | within .., _, _ => inferInstanceAs (Decidable (_ ∧ _))
  | escaped .., _, _ => inferInstanceAs (Decidable (_ ∧ _))
  | marker .., _, _ => inferInstanceAs (Decidable (_ ∨ _))
  | lineComment .., _, _ | blockOpening .., _, _ | blockComment .., _, _ | blockClosing .., _, _ =>
      inferInstanceAs (Decidable (_ = _))

/-- In code, with no string and no tag around it. -/
def AtCode : Spot → Prop
  | within (.code _) outer => outer = []
  | _ => False

instance decidableAtCode : (spot : Spot) → Decidable spot.AtCode
  | within (.code _) _ => inferInstanceAs (Decidable (_ = _))
  | within .string _ | within .body _ | escaped _ | marker .. | lineComment .. | blockOpening .. |
      blockComment .. | blockClosing .. => inferInstanceAs (Decidable False)

end Spot

/-- From a spot to the end, the removal of comments agrees with the grammar. -/
def AgreesFrom : Spot → Bytes → Prop
  | spot, [] => spot.AtCode
  | spot, b :: rest => spot.Agrees b rest ∧ AgreesFrom (spot.next b rest) rest

instance decidableAgreesFrom : (spot : Spot) → (text : Bytes) → Decidable (AgreesFrom spot text)
  | spot, [] => inferInstanceAs (Decidable spot.AtCode)
  | spot, b :: rest =>
      have := decidableAgreesFrom (spot.next b rest) rest
      inferInstanceAs (Decidable (_ ∧ _))

def root : Spot := .within (.code 0) []

theorem Opens.eq_hash_or_slash {b : UInt8} {after : Bytes} (h : Opens b after) :
    b = Byte.hash ∨ b = Byte.slash := by
  rcases h with hline | ⟨rfl, -⟩
  · simp only [opensLine, Bool.or_eq_true, Bool.and_eq_true, decide_eq_true_eq] at hline
    exact hline.imp_right And.left
  · exact Or.inr rfl

/-- What the removal of comments makes of a byte that it keeps. -/
def joined (b : UInt8) : UInt8 := if b = Byte.newline then Byte.space else b

namespace Spot

variable {spot : Spot} {frame : Frame} {outer : List Frame} {braces : Nat} {b : UInt8}
  {after rest : Bytes}

/-- Where the removal of comments takes a spot of a text to be. -/
def quote : Spot → Quote
  | within frame outer | marker frame outer =>
      if quoted (frame :: outer) then .inside Byte.quote else .outside
  | escaped _ => .escaped Byte.quote
  | lineComment .. | blockOpening .. | blockComment .. | blockClosing .. => .outside

/-- What the removal of comments makes of a text from a spot on. -/
def scanned : Spot → Bytes → Bytes
  | lineComment .., text => scan .lineComment text
  | blockComment .., text => scan .blockComment text
  | blockOpening .., text => scan .blockComment text.tail
  | blockClosing .., text => scan .code text.tail
  | spot, text => scan (Region.code spot.quote).place text

/-- A spot of a text outside of comments. -/
def IsText : Spot → Prop
  | within .. | marker .. | escaped _ => True
  | _ => False

theorem IsText.scanned (h : spot.IsText) (text : Bytes) :
    spot.scanned text = scan (Region.code spot.quote).place text := by
  cases spot with
  | within frame outer => rfl
  | marker frame outer => rfl
  | escaped outer => rfl
  | _ => exact h.elim

theorem wellMarked_quote (spot : Spot) : spot.quote.WellMarked := by
  have hmark : IsMark Byte.quote := Or.inl rfl
  cases spot with
  | within frame outer =>
      simp only [quote]
      split
      · exact hmark
      · trivial
  | marker frame outer =>
      simp only [quote]
      split
      · exact hmark
      · trivial
  | escaped outer => exact hmark
  | _ => trivial

theorem quoted_framesBehindTag (frame : Frame) (outer : List Frame) (tag : Bytes) :
    quoted (framesBehindTag frame outer tag) = quoted (frame :: outer) := by
  unfold framesBehindTag
  split
  · rfl
  · split
    · rename_i hend
      rw [hend.1]
      rfl
    · rfl

theorem quote_leave (outer : List Frame) :
    (leave outer).quote = if quoted outer then .inside Byte.quote else .outside := by
  cases outer <;> rfl

theorem isText_leave (outer : List Frame) : (leave outer).IsText := by
  cases outer <;> trivial

/-- A template goes on in a string or a body, as far as the removal of comments can tell. -/
theorem quote_nextInTemplate (frame : Frame) (outer : List Frame) (b : UInt8) (after : Bytes) :
    (nextInTemplate frame outer b after).IsText ∧
      (nextInTemplate frame outer b after).quote = (within frame outer).quote := by
  have hmarker : ∀ frames, quoted frames = quoted (frame :: outer) →
      (marker (.code 0) frames).quote = (within frame outer).quote := by
    intro frames hframes
    have hquoted : quoted (.code 0 :: frames) = quoted (frame :: outer) := hframes
    simp only [quote, hquoted]
  unfold nextInTemplate
  split
  · split
    · exact ⟨trivial, rfl⟩
    · split
      · refine ⟨trivial, hmarker _ ?_⟩
        split
        · exact quoted_framesBehindTag frame outer after.tail
        · rfl
      · exact ⟨trivial, rfl⟩
  · exact ⟨trivial, rfl⟩

theorem opens_code {braces : Nat} {outer : List Frame} {b : UInt8} {after : Bytes}
    (hopens : Opens b after) (h : (within (.code braces) outer).Agrees b after) :
    quoted outer = false := by
  have hcode := (h.2.2.2.2.1 hopens).mp
  cases hquoted : quoted outer with
  | false => rfl
  | true => simp [quoted, hquoted] at hcode

/-- What is behind a byte of text: as far as the removal of comments can tell, what the quotes make
of the byte. -/
structure Follows (spot : Spot) (quote : Quote) : Prop where
  isText : spot.IsText
  quote_eq : spot.quote = quote

theorem follows_leave (outer : List Frame) :
    Follows (leave outer) (if quoted outer then .inside Byte.quote else .outside) :=
  ⟨isText_leave outer, quote_leave outer⟩

theorem follows_close (braces : Nat) (outer : List Frame) :
    Follows (close braces outer) (within (.code braces) outer).quote := by
  cases braces with
  | zero => exact follows_leave outer
  | succ braces => exact ⟨trivial, rfl⟩

/-- A byte that is neither a mark nor a backslash leaves the quotes as they are. -/
theorem next_quote_within {b : UInt8} (hmark : ¬ IsMark b) (hbackslash : b ≠ Byte.backslash) :
    (within frame outer).quote.next b = (within frame outer).quote := by
  obtain ⟨hquote, happostrophe⟩ := not_or.mp hmark
  cases hquoted : quoted (frame :: outer) <;>
    simp [quote, hquoted, Quote.next, happostrophe, hbackslash, hquote]

theorem next_quote_quote :
    (within frame outer).quote.next Byte.quote =
      if quoted (frame :: outer) then .outside else .inside Byte.quote := by
  have hbackslash : Byte.quote ≠ Byte.backslash := by decide
  cases hquoted : quoted (frame :: outer) <;> simp [quote, hquoted, Quote.next, hbackslash]

theorem next_quote_apostrophe (h : (within frame outer).Agrees Byte.apostrophe after) :
    (within frame outer).quote.next Byte.apostrophe = (within frame outer).quote := by
  have hne : Byte.apostrophe ≠ Byte.backslash ∧ Byte.apostrophe ≠ Byte.quote := by decide
  simp [quote, h.2.1 rfl, Quote.next, hne]

theorem next_code (hopens : ¬ Opens b after) :
    (within (.code braces) outer).next b after =
      if b = Byte.quote then within .string (.code braces :: outer)
      else if b = Byte.openBrace then within (.code (braces + 1)) outer
      else if b = Byte.closeBrace then close braces outer
      else within (.code braces) outer := by
  have hblock : ¬ (b = Byte.slash ∧ after.head? = some Byte.star) := fun h => hopens (Or.inr h)
  have hline : ¬ opensLine b after = true := fun h => hopens (Or.inl h)
  rw [next, if_neg hblock, if_neg hline]

theorem follows_code (h : (within (.code braces) outer).Agrees b after) (hopens : ¬ Opens b after) :
    Follows ((within (.code braces) outer).next b after)
      ((within (.code braces) outer).quote.next b) := by
  rw [next_code hopens]
  by_cases hquote : b = Byte.quote
  · subst b
    rw [if_pos rfl, next_quote_quote]
    refine ⟨trivial, ?_⟩
    cases hquoted : quoted outer <;> simp [quote, quoted, hquoted]
  · have hsame : (within (.code braces) outer).quote.next b =
        (within (.code braces) outer).quote := by
      by_cases happostrophe : b = Byte.apostrophe
      · subst b
        exact next_quote_apostrophe h
      · by_cases hbackslash : b = Byte.backslash
        · have hout : quoted (.code braces :: outer) = false := by simpa using h.2.2.1 hbackslash
          simp [quote, hout, Quote.next, hquote, happostrophe]
        · exact next_quote_within (not_or.mpr ⟨hquote, happostrophe⟩) hbackslash
    rw [if_neg hquote, hsame]
    split
    · exact ⟨trivial, rfl⟩
    · split
      · exact follows_close braces outer
      · exact ⟨trivial, rfl⟩

theorem follows_string (h : (within .string outer).Agrees b after) :
    Follows ((within .string outer).next b after) ((within .string outer).quote.next b) := by
  simp only [next]
  by_cases hquote : b = Byte.quote
  · subst b
    rw [if_pos rfl, next_quote_quote]
    have hleave := follows_leave outer
    cases hquoted : quoted outer <;> simpa [quoted, hquoted] using hleave
  · rw [if_neg hquote]
    by_cases hbackslash : b = Byte.backslash
    · have hin : quoted (.string :: outer) = true := (h.2.2.1 hbackslash).mpr rfl
      rw [if_pos hbackslash]
      exact ⟨trivial, by simp [quote, hin, Quote.next, hbackslash]⟩
    · have hsame : (within .string outer).quote.next b = (within .string outer).quote := by
        by_cases happostrophe : b = Byte.apostrophe
        · subst b
          exact next_quote_apostrophe h
        · exact next_quote_within (not_or.mpr ⟨hquote, happostrophe⟩) hbackslash
      rw [if_neg hbackslash, hsame]
      exact ⟨(quote_nextInTemplate _ _ _ _).1, (quote_nextInTemplate _ _ _ _).2⟩

theorem follows_body (h : (within .body outer).Agrees b after) :
    Follows ((within .body outer).next b after) ((within .body outer).quote.next b) := by
  have hquote : b ≠ Byte.quote := fun hb => h.2.2.2.1 hb rfl
  have hsame : (within .body outer).quote.next b = (within .body outer).quote := by
    by_cases happostrophe : b = Byte.apostrophe
    · subst b
      exact next_quote_apostrophe h
    · by_cases hbackslash : b = Byte.backslash
      · have hout : quoted (.body :: outer) = false := by simpa using h.2.2.1 hbackslash
        simp [quote, hout, Quote.next, hquote, happostrophe]
      · exact next_quote_within (not_or.mpr ⟨hquote, happostrophe⟩) hbackslash
  rw [hsame]
  exact ⟨(quote_nextInTemplate _ _ _ _).1, (quote_nextInTemplate _ _ _ _).2⟩

theorem follows_within (h : (within frame outer).Agrees b after)
    (hopens : ∀ braces, frame = .code braces → ¬ Opens b after) :
    Follows ((within frame outer).next b after) ((within frame outer).quote.next b) := by
  cases frame with
  | code braces => exact follows_code h (hopens braces rfl)
  | string => exact follows_string h
  | body => exact follows_body h

/-- Where a text has no comment by the grammar, the removal of comments sees none. -/
theorem quote_next_ne_outside (h : (within frame outer).Agrees b after) (hopens : Opens b after)
    (hframe : frame = .string ∨ frame = .body) :
    (within frame outer).quote.next b ≠ .outside := by
  have hquoted : quoted (frame :: outer) = true := (h.2.2.2.2.1 hopens).mpr hframe
  have hb : ¬ IsMark b ∧ b ≠ Byte.backslash := by
    rcases hopens.eq_hash_or_slash with rfl | rfl <;> decide
  rw [next_quote_within hb.1 hb.2, quote, if_pos hquoted]
  exact Quote.noConfusion

/-- A byte of text that is copied, and that the quotes go on behind as the grammar does. -/
structure Copies (spot : Spot) (b : UInt8) (after : Bytes) : Prop where
  isText : spot.IsText
  keeps : spot.keeps b after = true
  newline : b = Byte.newline → spot.quote = .outside
  opens : ¬ (spot.quote.next b = .outside ∧ Opens b after)
  follows : Follows (spot.next b after) (spot.quote.next b)

theorem copies_within (h : (within frame outer).Agrees b after)
    (hopens : ∀ braces, frame = .code braces → ¬ Opens b after) :
    Copies (within frame outer) b after where
  isText := trivial
  keeps := by
    cases frame with
    | code braces => simp [keeps, hopens braces rfl]
    | _ => rfl
  newline hnewline := by simp [quote, h.1 hnewline]
  opens := by
    rintro ⟨hout, hopen⟩
    cases frame with
    | code braces => exact hopens braces rfl hopen
    | string => exact quote_next_ne_outside h hopen (Or.inl rfl) hout
    | body => exact quote_next_ne_outside h hopen (Or.inr rfl) hout
  follows := follows_within h hopens

theorem copies_escaped (h : (escaped outer).Agrees b after) : Copies (escaped outer) b after where
  isText := trivial
  keeps := rfl
  newline hnewline := absurd hnewline h.2
  opens := fun hopen => Quote.noConfusion hopen.1
  follows := ⟨trivial, by simp [next, quote, quoted, h.1, Quote.next]⟩

theorem copies_marker (h : (marker frame outer).Agrees b after) :
    Copies (marker frame outer) b after := by
  have hb : b ≠ Byte.newline ∧ b ≠ Byte.hash ∧ b ≠ Byte.slash ∧ ¬ IsMark b ∧
      b ≠ Byte.backslash := by
    rcases h with rfl | rfl | rfl <;> decide
  obtain ⟨hnewline, hhash, hslash, hmark, hbackslash⟩ := hb
  have hsame : (marker frame outer).quote.next b = (within frame outer).quote := by
    change (within frame outer).quote.next b = (within frame outer).quote
    exact next_quote_within hmark hbackslash
  exact ⟨trivial, rfl, fun h => absurd h hnewline,
    fun hopen => hopen.2.eq_hash_or_slash.elim hhash hslash, ⟨trivial, hsame.symm⟩⟩

theorem IsText.copies_or_opens (hspot : spot.IsText) (h : spot.Agrees b after) :
    Copies spot b after ∨
      ∃ braces outer, spot = within (.code braces) outer ∧ Opens b after := by
  cases spot with
  | within frame outer =>
      by_cases hopens : ∃ braces, frame = .code braces ∧ Opens b after
      · obtain ⟨braces, rfl, hopen⟩ := hopens
        exact Or.inr ⟨braces, outer, rfl, hopen⟩
      · exact Or.inl (copies_within h fun braces hframe hopen => hopens ⟨braces, hframe, hopen⟩)
  | escaped outer => exact Or.inl (copies_escaped h)
  | marker frame outer => exact Or.inl (copies_marker h)
  | _ => exact hspot.elim

theorem Copies.scanned (h : Copies spot b rest) :
    spot.scanned (b :: rest) = joined b :: (spot.next b rest).scanned rest := by
  rw [h.isText.scanned, scan_code (wellMarked_quote spot), h.follows.isText.scanned,
    h.follows.quote_eq]
  by_cases hnewline : b = Byte.newline
  · rw [if_pos hnewline, joined, if_pos hnewline, h.newline hnewline, hnewline]
    rfl
  · rw [if_neg hnewline, if_neg fun hblock => h.opens ⟨hblock.1, Or.inr hblock.2⟩,
      if_neg fun hline => h.opens ⟨hline.1, Or.inl hline.2⟩, joined, if_neg hnewline]

theorem scanned_comment (h : (within (.code braces) outer).Agrees b rest) (hopens : Opens b rest) :
    (within (.code braces) outer).scanned (b :: rest) =
      ((within (.code braces) outer).next b rest).scanned rest := by
  have hout : (within (.code braces) outer).quote = .outside := by
    simp [quote, quoted, opens_code hopens h]
  have hb : b ≠ Byte.newline ∧ Quote.outside.next b = .outside := by
    rcases hopens.eq_hash_or_slash with rfl | rfl <;> decide
  change scan (Region.code (within (.code braces) outer).quote).place (b :: rest) = _
  rw [scan_code (wellMarked_quote _), hout, if_neg hb.1, hb.2]
  by_cases hblock : b = Byte.slash ∧ rest.head? = some Byte.star
  · rw [if_pos ⟨rfl, hblock⟩, next, if_pos hblock]
    rfl
  · have hline : opensLine b rest = true := hopens.resolve_right hblock
    rw [if_neg fun h => hblock h.2, if_pos ⟨rfl, hline⟩, next, if_neg hblock, if_pos hline]
    rfl

/-- What a byte leaves of itself when the comments are removed. -/
def left (spot : Spot) (b : UInt8) (after : Bytes) : Bytes :=
  if spot.keeps b after then [b] else []

theorem scanned_cons (h : spot.Agrees b rest) :
    spot.scanned (b :: rest) =
      (spot.left b rest).map joined ++ (spot.next b rest).scanned rest := by
  have htext : spot.IsText → spot.scanned (b :: rest) =
      (spot.left b rest).map joined ++ (spot.next b rest).scanned rest := by
    intro hspot
    rcases hspot.copies_or_opens h with hcopies | ⟨braces, outer, rfl, hopens⟩
    · rw [hcopies.scanned, left, if_pos hcopies.keeps]
      rfl
    · have hleft : (within (.code braces) outer).left b rest = [] := by simp [left, keeps, hopens]
      rw [scanned_comment h hopens, hleft]
      rfl
  cases spot with
  | within frame outer => exact htext trivial
  | escaped outer => exact htext trivial
  | marker frame outer => exact htext trivial
  | lineComment braces outer =>
      have hquoted : quoted (.code braces :: outer) = false := h
      change scan .lineComment (b :: rest) = _
      by_cases hnewline : b = Byte.newline
      · simp [scan, left, keeps, next, hnewline, joined, scanned, quote, hquoted]
        rfl
      · simp [scan, left, keeps, next, hnewline, scanned]
  | blockOpening braces outer => rfl
  | blockComment braces outer =>
      change scan .blockComment (b :: rest) = _
      cases rest with
      | nil => simp [scan, left, keeps, next, scanned]
      | cons c rest =>
          by_cases hclose : b = Byte.star ∧ c = Byte.slash
          · simp [scan, left, keeps, next, hclose, scanned]
          · simp [scan, left, keeps, next, hclose, scanned]
  | blockClosing braces outer =>
      have hquoted : quoted (.code braces :: outer) = false := h
      simp [left, keeps, next, scanned, quote, hquoted]
      rfl

/-- Behind a byte that is copied, no comment opens in what is left if none does further on. -/
theorem Copies.uncommented (h : Copies spot b rest)
    (hrest : Uncommented (spot.next b rest).quote ((spot.next b rest).scanned rest)) :
    Uncommented spot.quote (spot.scanned (b :: rest)) := by
  have hspace : Inert Byte.space := by decide
  rw [h.follows.quote_eq] at hrest
  rw [h.scanned]
  by_cases hnewline : b = Byte.newline
  · rw [joined, if_pos hnewline, uncommented_cons_inert (wellMarked_quote spot) hspace]
    rw [h.newline hnewline, hnewline] at hrest
    rw [h.newline hnewline, hnewline]
    exact hrest
  · rw [joined, if_neg hnewline]
    refine ⟨hnewline, ?_, hrest⟩
    rintro ⟨hout, hopens⟩
    rw [h.follows.isText.scanned, h.follows.quote_eq, hout] at hopens
    exact h.opens ⟨hout, hopens.of_scan⟩

end Spot

theorem uncommented_cons (spot : Spot) (b : UInt8) (rest : Bytes) :
    uncommented spot (b :: rest) = spot.left b rest ++ uncommented (spot.next b rest) rest := by
  rw [uncommented, Spot.left]
  split <;> rfl

theorem scanned_eq_uncommented {spot : Spot} {text : Bytes} (h : AgreesFrom spot text) :
    spot.scanned text = (uncommented spot text).map joined := by
  induction text generalizing spot with
  | nil => cases spot <;> simp [Spot.scanned, scan, uncommented]
  | cons b rest ih =>
      rw [Spot.scanned_cons h.1, ih h.2, uncommented_cons, List.map_append]

/-- Where the removal of comments agrees with the grammar, it removes the grammar's comments. -/
theorem strip_eq_uncommented {text : Bytes} (h : AgreesFrom root text) :
    strip text = (uncommented root text).map joined := by
  rw [strip, stripLines_stripBlocks]
  exact scanned_eq_uncommented h

/-- Around and in comments the quotes are outside, and a newline is all that is left. -/
theorem Spot.uncommented_comment {spot : Spot} {b : UInt8} {rest : Bytes} (h : spot.Agrees b rest)
    (hquote : spot.quote = .outside) (hnext : (spot.next b rest).quote = .outside)
    (hleft : spot.left b rest = [] ∨ spot.left b rest = [Byte.newline])
    (hrest : Uncommented (spot.next b rest).quote ((spot.next b rest).scanned rest)) :
    Uncommented spot.quote (spot.scanned (b :: rest)) := by
  have hspace : Inert Byte.space := by decide
  have hout : Quote.outside.WellMarked := trivial
  rw [hnext] at hrest
  rw [scanned_cons h, hquote]
  rcases hleft with hleft | hleft
  · rw [hleft]
    exact hrest
  · rw [hleft]
    exact (uncommented_cons_inert hout hspace _).mpr hrest

/-- No comment opens in what is left of a text. -/
theorem uncommented_scanned {spot : Spot} {text : Bytes} (h : AgreesFrom spot text) :
    Uncommented spot.quote (spot.scanned text) := by
  induction text generalizing spot with
  | nil => cases spot <;> simp [Spot.scanned, scan, Uncommented]
  | cons b rest ih =>
      obtain ⟨hb, hrest⟩ := h
      have hbehind := ih hrest
      have htext : spot.IsText → Uncommented spot.quote (spot.scanned (b :: rest)) := by
        intro hspot
        rcases hspot.copies_or_opens hb with hcopies | ⟨braces, outer, rfl, hopens⟩
        · exact hcopies.uncommented hbehind
        · have hquoted := Spot.opens_code hopens hb
          refine Spot.uncommented_comment hb (by simp [Spot.quote, quoted, hquoted]) ?_
            (Or.inl (by simp [Spot.left, Spot.keeps, hopens])) hbehind
          by_cases hblock : b = Byte.slash ∧ rest.head? = some Byte.star
          · rw [Spot.next, if_pos hblock]
            rfl
          · rw [Spot.next, if_neg hblock, if_pos (hopens.resolve_right hblock)]
            rfl
      cases spot with
      | within frame outer => exact htext trivial
      | escaped outer => exact htext trivial
      | marker frame outer => exact htext trivial
      | lineComment braces outer =>
          have hquoted : quoted (.code braces :: outer) = false := hb
          refine Spot.uncommented_comment hb rfl ?_ ?_ hbehind
          · rw [Spot.next]
            split
            · simp [Spot.quote, hquoted]
            · rfl
          · by_cases hnewline : b = Byte.newline
            · exact Or.inr (by simp [Spot.left, Spot.keeps, hnewline])
            · exact Or.inl (by simp [Spot.left, Spot.keeps, hnewline])
      | blockOpening braces outer =>
          exact Spot.uncommented_comment hb rfl rfl (Or.inl rfl) hbehind
      | blockComment braces outer =>
          refine Spot.uncommented_comment hb rfl ?_ (Or.inl rfl) hbehind
          rw [Spot.next]
          split <;> rfl
      | blockClosing braces outer =>
          have hquoted : quoted (.code braces :: outer) = false := hb
          refine Spot.uncommented_comment hb rfl ?_ (Or.inl rfl) hbehind
          simp [Spot.next, Spot.quote, hquoted]

theorem AgreesFrom.strip_strip {text : Bytes} (h : AgreesFrom root text) :
    strip (strip text) = strip text := by
  rw [strip_eq_self_iff, strip, stripLines_stripBlocks]
  exact uncommented_scanned h

end HclToJson.Comment
