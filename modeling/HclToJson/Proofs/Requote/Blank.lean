import HclToJson.Proofs.Grammar.Advance
import HclToJson.Proofs.Grammar.Blank
import HclToJson.Proofs.Requote.Fit

namespace HclToJson.Grammar

open Comment Text

section

variable {behind text rest : Bytes} {b : UInt8} {braces n : Nat} {outer : List Frame}

theorem closeLength?_passes (h : Fit (.blockComment braces outer) text)
    (hclose : closeLength? (text ++ behind) = some n) :
    n ≤ text.length ∧
      Passes (.blockComment braces outer) text [] (.within (.code braces) outer) (text.drop n) := by
  induction text generalizing n with
  | nil => exact absurd h.agrees id
  | cons b rest ih =>
      by_cases hend : b = Byte.star ∧ rest.head? = some Byte.slash
      · obtain ⟨rfl, hslash⟩ := hend
        obtain ⟨rest, rfl⟩ := List.head?_eq_some_iff.mp hslash
        have htwo : closeLength? (Byte.star :: Byte.slash :: (rest ++ behind)) = some 2 := rfl
        obtain rfl : 2 = n := Option.some.inj (htwo.symm.trans hclose)
        have hstar := h.passes_dropped rfl
        rw [Spot.next, if_pos ⟨rfl, rfl⟩] at hstar
        exact ⟨by simp, hstar.trans (hstar.fit.passes_dropped rfl)⟩
      · have hstar := h.passes_dropped rfl
        rw [Spot.next, if_neg hend] at hstar
        cases rest with
        | nil => exact absurd hstar.fit.agrees id
        | cons c rest =>
            have hne : ¬ (b = Byte.star ∧ (c :: (rest ++ behind)).head? = some Byte.slash) := hend
            rw [List.cons_append, List.cons_append, closeLength?_cons b _ hne] at hclose
            obtain ⟨m, hm, rfl⟩ := Option.map_eq_some_iff.mp hclose
            obtain ⟨hinside, hpasses⟩ := ih hstar.fit hm
            exact ⟨Nat.succ_le_succ hinside, hstar.trans hpasses⟩

theorem lineLength?_passes (h : Fit (.lineComment braces outer) text)
    (hline : lineLength? (text ++ behind) = some n) :
    n ≤ text.length ∧
      Passes (.lineComment braces outer) text [] (.lineComment braces outer) (text.drop n) ∧
      0 < newlineLength (text.drop n ++ behind) := by
  induction text generalizing n with
  | nil => exact absurd h.agrees id
  | cons b rest ih =>
      rw [List.cons_append, lineLength?] at hline
      by_cases hend : 0 < newlineLength (b :: (rest ++ behind))
      · rw [if_pos hend] at hline
        cases hline
        exact ⟨Nat.zero_le _, .refl h, hend⟩
      · rw [if_neg hend] at hline
        split at hline
        · cases hline
        · obtain ⟨m, hm, rfl⟩ := Option.map_eq_some_iff.mp hline
          have hb : b ≠ Byte.newline := by
            rintro rfl
            exact hend (Nat.succ_pos 0)
          have hbyte := h.passes_dropped (by simp [Spot.keeps, hb])
          rw [Spot.next, if_neg hb] at hbyte
          obtain ⟨hinside, hpasses, hlength⟩ := ih hbyte.fit hm
          exact ⟨Nat.succ_le_succ hinside, hbyte.trans hpasses, hlength⟩

/-- A text that could be a part of a comment only with what is behind it. -/
abbrev Cut (text : Bytes) : Prop := text = [] ∨ text = [Byte.slash]

theorem blockCommentLength?_passes (h : Fit (.within (.code braces) outer) text) (hcut : ¬ Cut text)
    (hcomment : blockCommentLength? (text ++ behind) = some n) :
    n ≤ text.length ∧
      Passes (.within (.code braces) outer) text [] (.within (.code braces) outer)
        (text.drop n) := by
  match text with
  | [] => exact absurd (Or.inl rfl) hcut
  | [b] =>
      rw [List.singleton_append, blockCommentLength?.eq_def] at hcomment
      split at hcomment
      · rename_i heq
        exact absurd (Or.inr (congrArg ([·]) (List.cons.inj heq).1)) hcut
      · cases hcomment
  | b :: c :: rest =>
      rw [List.cons_append, List.cons_append, blockCommentLength?.eq_def] at hcomment
      split at hcomment
      · rename_i heq
        simp only [List.cons.injEq] at heq
        obtain ⟨rfl, rfl, rfl⟩ := heq
        obtain ⟨m, hm, rfl⟩ := Option.map_eq_some_iff.mp hcomment
        have hopens : Opens Byte.slash (Byte.star :: rest) := Or.inr ⟨rfl, rfl⟩
        have hslash := h.passes_dropped (by simp [Spot.keeps, hopens])
        rw [Spot.next, if_pos ⟨rfl, rfl⟩] at hslash
        have hstar := hslash.trans (hslash.fit.passes_dropped rfl)
        obtain ⟨hinside, hpasses⟩ := closeLength?_passes hstar.fit hm
        exact ⟨by simpa using hinside, hstar.trans hpasses⟩
      · cases hcomment

theorem lineCommentLength?_passes (h : Fit (.within (.code braces) outer) text) (hcut : ¬ Cut text)
    (hcomment : lineCommentLength? (text ++ behind) = some n) :
    n ≤ text.length ∧
      Passes (.within (.code braces) outer) text [] (.lineComment braces outer) (text.drop n) ∧
      0 < newlineLength (text.drop n ++ behind) := by
  have hopen : ∀ {b rest}, opensLine b rest = true →
    Fit (.within (.code braces) outer) (b :: rest) →
      ¬ (b = Byte.slash ∧ rest.head? = some Byte.star) →
      Passes (.within (.code braces) outer) (b :: rest) [] (.lineComment braces outer) rest := by
    intro b rest hline hfit hblock
    have hopens : Opens b rest := Or.inl hline
    have hpasses := hfit.passes_dropped (by simp [Spot.keeps, hopens])
    rwa [Spot.next, if_neg hblock, if_pos hline] at hpasses
  cases text with
  | nil => exact absurd (Or.inl rfl) hcut
  | cons b rest =>
      rw [List.cons_append, lineCommentLength?.eq_def] at hcomment
      split at hcomment
      · rename_i heq
        simp only [List.cons.injEq] at heq
        obtain ⟨rfl, rfl⟩ := heq
        obtain ⟨m, hm, rfl⟩ := Option.map_eq_some_iff.mp hcomment
        have hhash := hopen (by simp [opensLine]) h fun hblock => absurd hblock.1 (by decide)
        obtain ⟨hinside, hpasses, hlength⟩ := lineLength?_passes hhash.fit hm
        exact ⟨Nat.succ_le_succ hinside, hhash.trans hpasses, hlength⟩
      · rename_i heq
        obtain ⟨m, hm, rfl⟩ := Option.map_eq_some_iff.mp hcomment
        cases rest with
        | nil => exact absurd (Or.inr (congrArg ([·]) (List.cons.inj heq).1)) hcut
        | cons c rest =>
            simp only [List.cons_append, List.cons.injEq] at heq
            obtain ⟨rfl, rfl, rfl⟩ := heq
            have hslash := hopen (by simp [opensLine]) h fun hblock =>
              absurd (Option.some.inj hblock.2) (by decide)
            have hslashes := hslash.trans (hslash.fit.passes_dropped rfl)
            obtain ⟨hinside, hpasses, hlength⟩ := lineLength?_passes hslashes.fit hm
            exact ⟨by simpa using hinside, hslashes.trans hpasses, hlength⟩
      · cases hcomment

theorem blankPiece_cases {newlines : Bool} {b : UInt8} {rest : Bytes}
    (hn : blankPiece newlines (b :: rest) = n) (hpos : n ≠ 0) :
    (n = 1 ∧ Byte.isBlank b = true) ∨ blockCommentLength? (b :: rest) = some n ∨
      (newlines = true ∧ lineCommentLength? (b :: rest) = some n) := by
  rw [blankPiece] at hn
  split at hn
  · rename_i hspace
    exact Or.inl ⟨hn.symm, by rcases hspace with rfl | rfl <;> rfl⟩
  · split at hn
    · rename_i hend
      exact Or.inl ⟨hn.symm, by rcases hend.2 with rfl | rfl <;> rfl⟩
    · split at hn
      · rename_i m hm
        exact Or.inr (Or.inl (hm.trans (congrArg some hn)))
      · split at hn
        · rename_i hnewlines
          cases hm : lineCommentLength? (b :: rest) with
          | none =>
              rw [hm] at hn
              exact absurd hn.symm hpos
          | some m =>
              rw [hm] at hn
              exact Or.inr (Or.inr ⟨hnewlines, congrArg some hn⟩)
        · exact absurd hn.symm hpos

theorem blankPiece_passes {newlines : Bool} (h : Fit (.within (.code braces) outer) text)
    (hcut : ¬ Cut text) (hn : blankPiece newlines (text ++ behind) = n) (hpos : n ≠ 0) :
    n ≤ text.length ∧
      ((∃ blanks, (∀ b ∈ blanks, Byte.isBlank b = true) ∧
        Passes (.within (.code braces) outer) text blanks (.within (.code braces) outer)
          (text.drop n)) ∨
      (newlines = true ∧
        Passes (.within (.code braces) outer) text [] (.lineComment braces outer) (text.drop n) ∧
        0 < newlineLength (text.drop n ++ behind))) := by
  cases text with
  | nil => exact absurd (Or.inl rfl) hcut
  | cons b rest =>
      rcases blankPiece_cases hn hpos with ⟨rfl, hb⟩ | hblock | ⟨hnewlines, hline⟩
      · exact ⟨Nat.succ_pos _, Or.inl ⟨[b], List.forall_mem_singleton.mpr hb,
          h.passes_flat (.of_isBlank hb)⟩⟩
      · obtain ⟨hinside, hpasses⟩ := blockCommentLength?_passes h hcut hblock
        exact ⟨hinside, Or.inl ⟨[], List.forall_mem_nil _, hpasses⟩⟩
      · obtain ⟨hinside, hpasses, hlength⟩ := lineCommentLength?_passes h hcut hline
        exact ⟨hinside, Or.inr ⟨hnewlines, hpasses, hlength⟩⟩

theorem blankPiece_slash {newlines : Bool} (h : blankPiece newlines (Byte.slash :: text) ≠ 0) :
    1 < blankPiece newlines (Byte.slash :: text) := by
  generalize hn : blankPiece newlines (Byte.slash :: text) = n at h ⊢
  rcases blankPiece_cases hn h with ⟨-, hb⟩ | hblock | ⟨-, hline⟩
  · exact absurd hb (by decide)
  · rw [blockCommentLength?.eq_def] at hblock
    split at hblock
    · obtain ⟨k, -, rfl⟩ := Option.map_eq_some_iff.mp hblock
      exact Nat.succ_lt_succ (Nat.succ_pos k)
    · cases hblock
  · rw [lineCommentLength?.eq_def] at hline
    split at hline
    · rename_i heq
      exact absurd (List.cons.inj heq).1 (by decide)
    · obtain ⟨k, -, rfl⟩ := Option.map_eq_some_iff.mp hline
      exact Nat.succ_lt_succ (Nat.succ_pos k)
    · cases hline

/-! ### What is behind a text does not change what a separator passes over in it -/

theorem isSome_closeLength? (h : Fit (.blockComment braces outer) text) :
    (closeLength? (text ++ behind)).isSome = true := by
  induction text with
  | nil => exact absurd h.agrees id
  | cons b rest ih =>
      by_cases hend : b = Byte.star ∧ rest.head? = some Byte.slash
      · obtain ⟨rfl, hslash⟩ := hend
        obtain ⟨rest, rfl⟩ := List.head?_eq_some_iff.mp hslash
        rfl
      · have hrest := h.tail
        rw [Spot.next, if_neg hend] at hrest
        cases rest with
        | nil => exact absurd hrest.agrees id
        | cons c rest =>
            have hne : ¬ (b = Byte.star ∧ (c :: (rest ++ behind)).head? = some Byte.slash) := hend
            rw [List.cons_append, List.cons_append, closeLength?_cons b _ hne, Option.isSome_map]
            exact ih hrest

theorem closeLength?_append (behind : Bytes) (h : closeLength? text = some n) :
    closeLength? (text ++ behind) = some n := by
  induction text generalizing n with
  | nil => cases h
  | cons b rest ih =>
      by_cases hend : b = Byte.star ∧ rest.head? = some Byte.slash
      · obtain ⟨rfl, hslash⟩ := hend
        obtain ⟨rest, rfl⟩ := List.head?_eq_some_iff.mp hslash
        exact h
      · rw [closeLength?_cons b rest hend] at h
        obtain ⟨m, hm, rfl⟩ := Option.map_eq_some_iff.mp h
        have hend' : ¬ (b = Byte.star ∧ (rest ++ behind).head? = some Byte.slash) := by
          rintro ⟨rfl, hslash⟩
          cases rest with
          | nil => cases hm
          | cons c rest => exact hend ⟨rfl, hslash⟩
        rw [List.cons_append, closeLength?_cons b _ hend', ih hm]
        rfl

theorem newlineLength_inside (behind : Bytes) (h : Fit (.lineComment braces outer) text) :
    newlineLength (text ++ behind) = newlineLength text := by
  cases text with
  | nil => exact absurd h.agrees id
  | cons b rest =>
      by_cases hnewline : b = Byte.newline
      · rw [hnewline]
        rfl
      · by_cases hreturn : b = Byte.carriageReturn
        · obtain ⟨rest, rfl⟩ := List.head?_eq_some_iff.mp (h.parts.1 hreturn)
          rw [hreturn]
          rfl
        · rw [List.cons_append, newlineLength_of_ne ⟨hnewline, hreturn⟩,
            newlineLength_of_ne ⟨hnewline, hreturn⟩]

theorem lineLength?_inside (behind : Bytes) (h : Fit (.lineComment braces outer) text) :
    lineLength? (text ++ behind) = lineLength? text := by
  induction text with
  | nil => exact absurd h.agrees id
  | cons b rest ih =>
      have hlength := newlineLength_inside behind h
      rw [List.cons_append] at hlength
      rw [List.cons_append, lineLength?, lineLength?, hlength]
      split
      · rfl
      · rename_i hend
        split
        · rfl
        · have hb : b ≠ Byte.newline := fun hb => hend (by rw [hb]; exact Nat.succ_pos 0)
          have hrest := h.tail
          rw [Spot.next, if_neg hb] at hrest
          rw [ih hrest]

theorem blockCommentLength?_of_not_opens (h : ¬ Opens b rest) :
    blockCommentLength? (b :: rest) = none := by
  rw [blockCommentLength?.eq_def]
  split
  · rename_i heq
    obtain ⟨rfl, rfl⟩ := List.cons.inj heq
    exact absurd (Or.inr ⟨rfl, rfl⟩) h
  · rfl

theorem lineCommentLength?_of_not_opens (h : ¬ Opens b rest) :
    lineCommentLength? (b :: rest) = none := by
  rw [lineCommentLength?.eq_def]
  split
  · rename_i heq
    obtain ⟨rfl, rfl⟩ := List.cons.inj heq
    exact absurd (Or.inl rfl) h
  · rename_i heq
    obtain ⟨rfl, rfl⟩ := List.cons.inj heq
    exact absurd (Or.inl rfl) h
  · rfl

theorem opens_append (behind : Bytes) (hcut : ¬ Cut (b :: rest)) (h : ¬ Opens b rest) :
    ¬ Opens b (rest ++ behind) := by
  cases rest with
  | cons c rest => exact h
  | nil =>
      have hslash : b ≠ Byte.slash := fun hb => hcut (Or.inr (by rw [hb]))
      have hhash : b ≠ Byte.hash := fun hb => h (Or.inl (by simp [opensLine, hb]))
      exact fun hopens => hopens.eq_hash_or_slash.elim hhash hslash

theorem comment_inside (behind : Bytes) (h : Fit (.within (.code braces) outer) (b :: rest))
    (hcut : ¬ Cut (b :: rest)) :
    blockCommentLength? (b :: (rest ++ behind)) = blockCommentLength? (b :: rest) ∧
      lineCommentLength? (b :: (rest ++ behind)) = lineCommentLength? (b :: rest) := by
  by_cases hopens : Opens b rest
  · have hnext := h.tail
    rw [Spot.next] at hnext
    by_cases hblock : b = Byte.slash ∧ rest.head? = some Byte.star
    · rw [if_pos hblock] at hnext
      obtain ⟨rfl, hstar⟩ := hblock
      obtain ⟨rest, rfl⟩ := List.head?_eq_some_iff.mp hstar
      have hsome : (closeLength? (rest ++ [])).isSome = true := isSome_closeLength? hnext.tail
      rw [List.append_nil] at hsome
      obtain ⟨m, hm⟩ := Option.isSome_iff_exists.mp hsome
      have hbehind := closeLength?_append behind hm
      exact ⟨congrArg (Option.map (· + 2)) (hbehind.trans hm.symm), rfl⟩
    · have hopen : opensLine b rest = true := hopens.resolve_right hblock
      rw [if_neg hblock, if_pos hopen] at hnext
      simp only [opensLine, Bool.or_eq_true, Bool.and_eq_true, decide_eq_true_eq] at hopen
      rcases hopen with rfl | ⟨rfl, hslash⟩
      · exact ⟨rfl, congrArg (Option.map (· + 1)) (lineLength?_inside behind hnext)⟩
      · obtain ⟨rest, rfl⟩ := List.head?_eq_some_iff.mp hslash
        exact ⟨rfl, congrArg (Option.map (· + 2)) (lineLength?_inside behind hnext.tail)⟩
  · have hopens' := opens_append behind hcut hopens
    rw [blockCommentLength?_of_not_opens hopens, blockCommentLength?_of_not_opens hopens',
      lineCommentLength?_of_not_opens hopens, lineCommentLength?_of_not_opens hopens']
    exact ⟨rfl, rfl⟩

theorem blankPiece_inside {newlines : Bool} (behind : Bytes)
    (h : Fit (.within (.code braces) outer) text)
    (hcut : ¬ Cut text) : blankPiece newlines (text ++ behind) = blankPiece newlines text := by
  cases text with
  | nil => exact absurd (Or.inl rfl) hcut
  | cons b rest =>
      obtain ⟨hblock, hline⟩ := comment_inside behind h hcut
      rw [List.cons_append, blankPiece, blankPiece, hblock, hline]

/-- One byte of fuel for each byte of a text is enough. -/
theorem blankLength_fuel {newlines : Bool} {fuel fuel' : Bytes} (h : text.length ≤ fuel.length)
    (h' : text.length ≤ fuel'.length) :
    blankLength newlines fuel text = blankLength newlines fuel' text := by
  have hnil : ∀ fuel, blankLength newlines fuel [] = 0 := fun fuel =>
    Nat.le_zero.mp (blankLength_le newlines fuel [])
  induction fuel generalizing text fuel' with
  | nil =>
      obtain rfl := List.eq_nil_of_length_eq_zero (Nat.le_zero.mp h)
      rw [hnil, hnil]
  | cons b fuel ih =>
      cases fuel' with
      | nil =>
          obtain rfl := List.eq_nil_of_length_eq_zero (Nat.le_zero.mp h')
          rw [hnil, hnil]
      | cons b' fuel' =>
          rw [blankLength_cons, blankLength_cons]
          split
          · rfl
          · rw [List.length_cons] at h h'
            exact congrArg _ (ih (by rw [List.length_drop]; omega)
              (by rw [List.length_drop]; omega))

theorem newline_passes (h : Fit (.lineComment braces outer) text)
    (hend : 0 < newlineLength (text ++ behind)) :
    (∃ rest, text = Byte.newline :: rest ∧ Passes (.lineComment braces outer) text [Byte.newline]
      (.within (.code braces) outer) rest) ∨
    (∃ rest, text = Byte.carriageReturn :: Byte.newline :: rest ∧
      Passes (.lineComment braces outer) text [] (.lineComment braces outer)
        (Byte.newline :: rest)) := by
  cases text with
  | nil => exact absurd h.agrees id
  | cons b rest =>
      rw [List.cons_append, newlineLength.eq_def] at hend
      split at hend
      · rename_i heq
        simp only [List.cons.injEq] at heq
        obtain ⟨rfl, -⟩ := heq
        exact Or.inl ⟨rest, rfl, h.passes_kept rfl⟩
      · rename_i heq
        have hreturn := h.passes_dropped (b := b) (by rw [(List.cons.inj heq).1]; rfl)
        rw [(List.cons.inj heq).1] at hreturn
        cases rest with
        | nil => exact absurd hreturn.fit.agrees id
        | cons c rest =>
            simp only [List.cons_append, List.cons.injEq] at heq
            obtain ⟨rfl, rfl, -⟩ := heq
            exact Or.inr ⟨rest, rfl, hreturn⟩
      · exact absurd hend (Nat.lt_irrefl 0)

/-- A separator that comes `n` bytes further passes over white space and comments of a text; if that
is more than the text, the text is nothing else. -/
def Separates (newlines : Bool) (fuel : Bytes) (spot target : Spot) (text : Bytes) (n : Nat) :
    Prop :=
  ∃ blanks left, (∀ b ∈ blanks, Byte.isBlank b = true) ∧ Passes spot text blanks target left ∧
    (n ≤ text.length ∧ left = text.drop n ∧ blankLength newlines fuel text = n ∨
      text.length < n ∧ Cut left)

theorem Separates.none {newlines : Bool} {fuel : Bytes} {spot : Spot} (h : Fit spot text)
    (hlength : blankLength newlines fuel text = 0) :
    Separates newlines fuel spot spot text 0 :=
  ⟨[], text, List.forall_mem_nil _, .refl h, Or.inl ⟨Nat.zero_le _, rfl, hlength⟩⟩

theorem Separates.cut {newlines : Bool} {fuel : Bytes} {spot : Spot} (h : Fit spot text)
    (hcut : Cut text) (hlength : text.length < n) : Separates newlines fuel spot spot text n :=
  ⟨[], text, List.forall_mem_nil _, .refl h, Or.inr ⟨hlength, hcut⟩⟩

/-- One blank or comment of the text, and what follows it. -/
theorem Separates.step {newlines : Bool} {fuel blanks : Bytes} {b : UInt8}
    {spot spot' target : Spot} {m : Nat} (hpiece : blankPiece newlines text = m) (hpos : m ≠ 0)
    (hinside : m ≤ text.length) (hblanks : ∀ b ∈ blanks, Byte.isBlank b = true)
    (hpasses : Passes spot text blanks spot' (text.drop m))
    (h : Separates newlines fuel spot' target (text.drop m) n) :
    Separates newlines (b :: fuel) spot target text (m + n) := by
  obtain ⟨blanks', left, hblanks', hpasses', hleft⟩ := h
  refine ⟨blanks ++ blanks', left, List.forall_mem_append.mpr ⟨hblanks, hblanks'⟩,
    hpasses.trans hpasses', ?_⟩
  rw [List.length_drop, List.drop_drop] at hleft
  rw [blankLength_cons, hpiece, if_neg hpos]
  exact hleft.imp (fun h => ⟨by omega, h.2.1, by omega⟩) fun h => ⟨by omega, h.2⟩

/-- Where a text may end before its separator does, all of the text is passed over. -/
theorem Cut.length_lt {newlines : Bool} (hcut : Cut text)
    (hpos : blankPiece newlines (text ++ behind) ≠ 0) :
    text.length < blankPiece newlines (text ++ behind) := by
  rcases hcut with rfl | rfl
  · exact Nat.pos_of_ne_zero hpos
  · exact blankPiece_slash hpos

theorem Cut.blankPiece_eq_zero {newlines : Bool} (hcut : Cut text) :
    blankPiece newlines text = 0 := by
  rcases hcut with rfl | rfl
  · rfl
  · cases newlines <;> rfl

/-- What a separator passes over in code is white space and comments. -/
theorem blankLength_passes {newlines : Bool} {spot : Spot} {fuel : Bytes} (h : Fit spot text)
    (hspot : spot = .within (.code braces) outer ∨
      spot = .lineComment braces outer ∧ newlines = true ∧ 0 < newlineLength (text ++ behind))
    (hfuel : (text ++ behind).length ≤ fuel.length) :
    Separates newlines fuel spot (.within (.code braces) outer) text
      (blankLength newlines fuel (text ++ behind)) := by
  induction fuel generalizing spot text with
  | nil =>
      obtain rfl : text = [] := by
        have hlength := Nat.le_zero.mp hfuel
        rw [List.length_append] at hlength
        exact List.eq_nil_of_length_eq_zero (by omega)
      rcases hspot with rfl | ⟨rfl, -, -⟩
      · exact .none h rfl
      · exact absurd h.agrees id
  | cons b fuel ih =>
      have hstep : ∀ {m blanks spot'}, blankPiece newlines (text ++ behind) = m →
          blankPiece newlines text = m → m ≠ 0 → m ≤ text.length →
          (∀ b ∈ blanks, Byte.isBlank b = true) → Passes spot text blanks spot' (text.drop m) →
          (spot' = .within (.code braces) outer ∨ spot' = .lineComment braces outer ∧
            newlines = true ∧ 0 < newlineLength (text.drop m ++ behind)) →
          Separates newlines (b :: fuel) spot (.within (.code braces) outer) text
            (blankLength newlines (b :: fuel) (text ++ behind)) := by
        intro m blanks spot' hpiece hpiece' hpos hinside hblanks hpasses hspot'
        rw [blankLength_cons, hpiece, if_neg hpos, List.drop_append_of_le_length hinside]
        refine .step hpiece' hpos hinside hblanks hpasses (ih hpasses.fit hspot' ?_)
        rw [List.length_append, List.length_drop]
        rw [List.length_append, List.length_cons] at hfuel
        omega
      rcases hspot with rfl | ⟨rfl, rfl, hend⟩
      · by_cases hcut : Cut text
        · by_cases hpos : blankPiece newlines (text ++ behind) = 0
          · rw [blankLength_cons, if_pos hpos]
            exact .none h (by rw [blankLength_cons, if_pos hcut.blankPiece_eq_zero])
          · have hlength := hcut.length_lt hpos
            rw [blankLength_cons, if_neg hpos]
            exact .cut h hcut (by omega)
        · have hpiece : blankPiece newlines (text ++ behind) = blankPiece newlines text :=
            blankPiece_inside behind h hcut
          by_cases hpos : blankPiece newlines text = 0
          · rw [blankLength_cons, if_pos (hpiece.trans hpos)]
            exact .none h (by rw [blankLength_cons, if_pos hpos])
          · obtain ⟨hinside, ⟨blanks, hblanks, hpasses⟩ | ⟨hnewlines, hpasses, hend⟩⟩ :=
              blankPiece_passes h hcut hpiece (hpiece ▸ hpos)
            · exact hstep hpiece rfl hpos hinside hblanks hpasses (Or.inl rfl)
            · exact hstep hpiece rfl hpos hinside (List.forall_mem_nil _) hpasses
                (Or.inr ⟨rfl, hnewlines, hend⟩)
      · rcases newline_passes h hend with ⟨rest, rfl, hpasses⟩ | ⟨rest, rfl, hpasses⟩
        · exact hstep (m := 1) rfl rfl (by decide) (by simp) (List.forall_mem_singleton.mpr rfl)
            hpasses (Or.inl rfl)
        · exact hstep (m := 1) rfl rfl (by decide) (by simp) (List.forall_mem_nil _) hpasses
            (Or.inr ⟨rfl, rfl, Nat.succ_pos 0⟩)

/-! ### Where separators stop -/

theorem blankPiece_blankLength {newlines : Bool} {fuel : Bytes}
    (hfuel : text.length ≤ fuel.length) :
    blankPiece newlines (text.drop (blankLength newlines fuel text)) = 0 := by
  induction fuel generalizing text with
  | nil =>
      obtain rfl : text = [] := List.eq_nil_of_length_eq_zero (Nat.le_zero.mp hfuel)
      rfl
  | cons b fuel ih =>
      rw [blankLength_cons]
      by_cases hpos : blankPiece newlines text = 0
      · rw [if_pos hpos, List.drop_zero, hpos]
      · rw [if_neg hpos, ← List.drop_drop]
        refine ih ?_
        rw [List.length_drop]
        rw [List.length_cons] at hfuel
        omega

theorem isSome_lineLength? (behind : Bytes) (h : Fit (.lineComment braces outer) text) :
    (lineLength? (text ++ behind)).isSome = true := by
  induction text with
  | nil => exact absurd h.agrees id
  | cons b rest ih =>
      rw [List.cons_append, lineLength?]
      by_cases hend : 0 < newlineLength (b :: (rest ++ behind))
      · rw [if_pos hend]
        rfl
      · have hb : b ≠ Byte.newline := fun hb => hend (by rw [hb]; exact Nat.succ_pos 0)
        have hrest := h.tail
        rw [Spot.next, if_neg hb] at hrest
        have hreturn : b ≠ Byte.carriageReturn := by
          rintro rfl
          obtain ⟨rest, rfl⟩ := List.head?_eq_some_iff.mp (h.parts.1 rfl)
          exact hend (Nat.succ_pos 1)
        rw [if_neg hend, if_neg hreturn, Option.isSome_map]
        exact ih hrest

/-- A comment of the text is one for the parser. -/
theorem blankPiece_opens (behind : Bytes) {b : UInt8} {rest : Bytes}
    (h : Fit (.within (.code braces) outer) (b :: rest)) (hopens : Opens b rest) :
    blankPiece true (b :: (rest ++ behind)) ≠ 0 := by
  have hnext := h.tail
  rw [Spot.next] at hnext
  by_cases hblock : b = Byte.slash ∧ rest.head? = some Byte.star
  · rw [if_pos hblock] at hnext
    obtain ⟨rfl, hstar⟩ := hblock
    obtain ⟨rest, rfl⟩ := List.head?_eq_some_iff.mp hstar
    have hsome : (closeLength? (rest ++ behind)).isSome = true := isSome_closeLength? hnext.tail
    obtain ⟨m, hm⟩ := Option.isSome_iff_exists.mp hsome
    have hcomment : blockCommentLength? (Byte.slash :: (Byte.star :: rest ++ behind)) =
        some (m + 2) := congrArg (Option.map (· + 2)) hm
    rw [blankPiece, if_neg (by decide), if_neg (by decide), hcomment]
    exact Nat.succ_ne_zero _
  · have hopen : opensLine b rest = true := hopens.resolve_right hblock
    rw [if_neg hblock, if_pos hopen] at hnext
    simp only [opensLine, Bool.or_eq_true, Bool.and_eq_true, decide_eq_true_eq] at hopen
    rcases hopen with rfl | ⟨rfl, hslash⟩
    · obtain ⟨m, hm⟩ := Option.isSome_iff_exists.mp (isSome_lineLength? behind hnext)
      have hpiece : blankPiece true (Byte.hash :: (rest ++ behind)) =
          ((lineLength? (rest ++ behind)).map (· + 1)).getD 0 := rfl
      rw [hpiece, hm]
      exact Nat.succ_ne_zero m
    · obtain ⟨rest, rfl⟩ := List.head?_eq_some_iff.mp hslash
      obtain ⟨m, hm⟩ := Option.isSome_iff_exists.mp (isSome_lineLength? behind hnext.tail)
      have hpiece : blankPiece true (Byte.slash :: (Byte.slash :: rest ++ behind)) =
          ((lineLength? (rest ++ behind)).map (· + 2)).getD 0 := rfl
      rw [hpiece, hm]
      exact Nat.succ_ne_zero (m + 1)

theorem blankPiece_isBlank {b : UInt8} (hb : Byte.isBlank b = true) (rest : Bytes) :
    blankPiece true (b :: rest) = 1 := by
  simp only [Byte.isBlank, Bool.or_eq_true, decide_eq_true_eq] at hb
  rcases hb with ((rfl | rfl) | rfl) | rfl <;> rfl

/-- Where a separator that passes over line ends stops, code goes on. -/
theorem settled_of_blankPiece (behind : Bytes) (h : Fit (.within (.code braces) outer) text)
    (hpiece : blankPiece true (text ++ behind) = 0) : Settled text := by
  intro b hb
  obtain ⟨rest, rfl⟩ := List.head?_eq_some_iff.mp hb
  refine ⟨(Bool.not_eq_true _).mp fun hblank => ?_, fun hopens => ?_⟩
  · rw [List.cons_append, blankPiece_isBlank hblank] at hpiece
    cases hpiece
  · exact blankPiece_opens behind h hopens hpiece

theorem blankPiece_settled (h : Settled text) (newlines : Bool) : blankPiece newlines text = 0 := by
  cases text with
  | nil => rfl
  | cons b rest =>
      obtain ⟨hblank, hopens⟩ := h b rfl
      rw [List.tail_cons] at hopens
      have hb : ¬ (b = Byte.space ∨ b = Byte.tab) ∧
          ¬ (newlines = true ∧ (b = Byte.newline ∨ b = Byte.carriageReturn)) := by
        simp only [Byte.isBlank, Bool.or_eq_false_iff, decide_eq_false_iff_not] at hblank
        exact ⟨by simp [hblank], by simp [hblank]⟩
      rw [Grammar.blankPiece, if_neg hb.1, if_neg hb.2, blockCommentLength?_of_not_opens hopens,
        lineCommentLength?_of_not_opens hopens]
      cases newlines <;> rfl

theorem blankLength_settled (h : Settled text) (newlines : Bool) (fuel : Bytes) :
    blankLength newlines fuel text = 0 := by
  cases fuel with
  | nil => rfl
  | cons b fuel => rw [blankLength_cons, if_pos (blankPiece_settled h newlines)]

theorem separator_eq (newlines : Bool) (c : Cursor) :
    separator newlines c =
      .ok (⟨⟩, ⟨c.pos + blankLength newlines c.rest c.rest,
        c.rest.drop (blankLength newlines c.rest c.rest)⟩) := by
  simp only [separator, Parser.bind_eq, Parser.ahead_eq, Parser.discard_eq, Parser.take_eq]

end

/-- Two readers of a text, one of the text itself and one of the text without comments and with
single spaces, stand at the same place of it. -/
structure Tracks (behind : Bytes) (spot : Spot) (text : Bytes) (c c' : Cursor) : Prop where
  rest : c.rest = text ++ behind
  fit : Fit spot text
  tidy : c'.rest = squeeze (uncommented spot text) ∨
    c'.rest = squeezeBehind (uncommented spot text)

section

variable {behind text text' : Bytes} {braces : Nat} {outer : List Frame} {c c' d : Cursor}

/-- A separator of the squeezed text comes to the next token. -/
theorem separator_tidy (h : Tracks behind (.within (.code braces) outer) text c c')
    (newlines : Bool) :
    ∃ d', separator newlines c' = .ok (⟨⟩, d') ∧
      d'.rest = squeeze (uncommented (.within (.code braces) outer) text) ∧
      d'.rest.length ≤ c'.rest.length := by
  have hsettled := h.fit.settled trivial
  have hspaced : c'.rest = squeeze (uncommented (.within (.code braces) outer) text) ∨
      c'.rest = Byte.space :: squeeze (uncommented (.within (.code braces) outer) text) := by
    rcases h.tidy with htidy | htidy
    · exact Or.inl htidy
    · rw [htidy]
      exact squeezeBehind_cases _
  rw [separator_eq]
  generalize squeeze (uncommented (.within (.code braces) outer) text) = tidy at *
  refine ⟨_, rfl, ?_, by simp⟩
  rcases hspaced with hrest | hrest
  · rw [hrest, blankLength_settled hsettled, List.drop_zero]
  · have hone : blankPiece newlines (Byte.space :: tidy) = 1 := rfl
    rw [hrest, blankLength_cons, hone, if_neg (by decide), List.drop_succ_cons, List.drop_zero,
      blankLength_settled hsettled]
    rfl

/-- What the parser passes over between two tokens of code is white space and comments. -/
theorem separator_passes {newlines : Bool} {value : Unit}
    (h : Fit (.within (.code braces) outer) text) (hc : c.rest = text ++ behind)
    (hrun : separator newlines c = .ok (value, d)) (hd : d.rest = text' ++ behind) :
    text' = text.drop (blankLength newlines text text) ∧
      ∃ blanks, (∀ b ∈ blanks, Byte.isBlank b = true) ∧
        Passes (.within (.code braces) outer) text blanks (.within (.code braces) outer) text' := by
  rw [separator_eq, hc] at hrun
  cases hrun
  generalize hn : blankLength newlines (text ++ behind) (text ++ behind) = n at hd
  have hle := blankLength_le newlines (text ++ behind) (text ++ behind)
  rw [hn] at hle
  have hlength := congrArg List.length hd
  rw [List.length_drop, List.length_append, List.length_append] at hlength
  rw [List.length_append] at hle
  have hinside : n ≤ text.length := by omega
  rw [List.drop_append_of_le_length hinside] at hd
  obtain rfl := List.append_cancel_right hd
  obtain ⟨blanks, left, hblanks, hpasses, ⟨-, rfl, hsame⟩ | ⟨houtside, -⟩⟩ :=
    hn ▸ blankLength_passes h (Or.inl rfl) (Nat.le_refl _)
  · refine ⟨?_, blanks, hblanks, hpasses⟩
    rw [← hsame, blankLength_fuel (by rw [List.length_append]; omega) (Nat.le_refl _)]
  · exact absurd hinside (Nat.not_le.mpr houtside)

theorem settled_behind {value : Unit} (h : Fit (.within (.code braces) outer) text')
    (hrun : blankLines c = .ok (value, d)) (hd : d.rest = text' ++ behind) : Settled text' := by
  rw [blankLines, separator_eq] at hrun
  cases hrun
  refine settled_of_blankPiece behind h ?_
  rw [← hd]
  exact blankPiece_blankLength (Nat.le_refl _)

theorem retrace_separator {newlines : Bool} {value : Unit}
    (h : Fit (.within (.code braces) outer) text) (hc : c.rest = text ++ behind)
    (hrun : separator newlines c = .ok (value, d)) (hd : d.rest = text' ++ behind) :
    Fit (.within (.code braces) outer) text' ∧
      squeeze (uncommented (.within (.code braces) outer) text) =
        squeeze (uncommented (.within (.code braces) outer) text') ∧
      (newlines = true → Settled text') := by
  obtain ⟨-, blanks, hblanks, hpasses⟩ := separator_passes h hc hrun hd
  refine ⟨hpasses.fit, ?_, ?_⟩
  · rw [hpasses.uncommented, squeeze_blanks hblanks]
  · rintro rfl
    exact settled_behind hpasses.fit hrun hd

/-- A look at the next token sees the same byte in both texts, unless the text is at its end. -/
theorem look {newlines : Bool} {value : Unit} {b : UInt8}
    (h : Tracks behind (.within (.code braces) outer) text c c')
    (hrun : separator newlines c = .ok (value, d)) (hslash : b ≠ Byte.slash)
    (hb : (squeeze (uncommented (.within (.code braces) outer) text)).head? = some b) :
    ∃ text', d.rest = text' ++ behind := by
  rw [separator_eq, h.rest] at hrun
  cases hrun
  generalize hn : blankLength newlines (text ++ behind) (text ++ behind) = n
  obtain ⟨blanks, left, hblanks, hpasses, ⟨hinside, -⟩ | ⟨-, hcut⟩⟩ :=
    hn ▸ blankLength_passes h.fit (Or.inl rfl) (Nat.le_refl _)
  · exact ⟨text.drop n, List.drop_append_of_le_length hinside⟩
  · rw [hpasses.uncommented, squeeze_blanks hblanks] at hb
    rcases hcut with rfl | rfl
    · simp [uncommented] at hb
    · have hne : ¬ Opens Byte.slash [] := by
        rintro (h | h)
        · exact absurd h (by decide)
        · exact absurd h.2 (by decide)
      have hkept : uncommented (.within (.code braces) outer) [Byte.slash] = [Byte.slash] := by
        simp [uncommented, keeps_code hne]
      rw [hkept, squeeze_inked (whiteLength_token (by decide) _)] at hb
      exact absurd (Option.some.inj hb).symm hslash

end

end HclToJson.Grammar
