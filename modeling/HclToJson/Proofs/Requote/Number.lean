import HclToJson.Proofs.Requote.Token

namespace HclToJson.Grammar

open Comment Text HclToJson.Parser

section

variable {behind text text' rest : Bytes} {braces : Nat} {outer : List Frame} {b : UInt8}
  {c c' d : Cursor}

theorem digits_eq_ok {value : List Char} (h : digits c = .ok (value, d)) :
    ∃ word, c.rest = word ++ d.rest ∧ word ≠ [] ∧ (∀ e ∈ word, Byte.isDigit e = true) ∧
      (∀ e ∈ d.rest.head?, Byte.isDigit e = false) ∧ value = decode word := by
  obtain ⟨text, c₁, hahead, h⟩ := bind_eq_ok.mp h
  cases hahead
  obtain ⟨_, c₂, hrequire, h⟩ := bind_eq_ok.mp h
  rw [require_eq] at hrequire
  split at hrequire
  · rename_i hpos
    cases hrequire
    obtain ⟨word, c₃, htake, h⟩ := bind_eq_ok.mp h
    rw [take_eq] at htake
    cases htake
    cases h
    refine ⟨c.rest.takeWhile Byte.isDigit, ?_, ?_, ?_, ?_, ?_⟩
    · rw [drop_length_takeWhile, List.takeWhile_append_dropWhile]
    · exact List.ne_nil_of_length_pos (of_decide_eq_true hpos)
    · exact fun e he => List.all_eq_true.mp List.all_takeWhile e he
    · intro e he
      rw [drop_length_takeWhile] at he
      have hhead := List.head?_dropWhile_not Byte.isDigit c.rest
      rw [Option.mem_def.mp he] at hhead
      exact hhead
    · rw [take_length_takeWhile]
  · cases hrequire

theorem digits_ok {word : Bytes} (hrest : c.rest = word ++ rest) (hne : word ≠ [])
    (hword : ∀ e ∈ word, Byte.isDigit e = true) (hend : ∀ e ∈ rest.head?, Byte.isDigit e = false) :
    ∃ d, digits c = .ok (decode word, d) ∧ d.rest = rest := by
  have htake := takeWhile_append_of_head hword hend
  have hpos : decide (0 < word.length) = true := decide_eq_true (List.length_pos_of_ne_nil hne)
  obtain ⟨pos, text⟩ := c
  obtain rfl : text = word ++ rest := hrest
  refine ⟨⟨pos + word.length, rest⟩, ?_, rfl⟩
  simp only [digits, bind_eq, ahead_eq, require_eq, take_eq, pure_eq, htake, hpos, ↓reduceIte,
    List.take_left, List.drop_left]

theorem digits_miss (h : ∀ e ∈ c.rest.head?, Byte.isDigit e = false) :
    digits c = .error .miss := by
  have htake : c.rest.takeWhile Byte.isDigit = [] := by
    cases hrest : c.rest with
    | nil => rfl
    | cons e rest => simp [h e (by simp [hrest])]
  simp only [digits, bind_eq, ahead_eq, require_eq, htake, List.length_nil, Nat.lt_irrefl,
    decide_false, Bool.false_eq_true, ↓reduceIte]

theorem digits_eq_error {refusal : Refusal} (h : digits c = .error refusal) :
    refusal = .miss ∧ ∀ e ∈ c.rest.head?, Byte.isDigit e = false := by
  by_cases hhead : ∀ e ∈ c.rest.head?, Byte.isDigit e = false
  · rw [digits_miss hhead] at h
    cases h
    exact ⟨rfl, hhead⟩
  · obtain ⟨e, hnot⟩ := not_forall.mp hhead
    obtain ⟨he, hdigit⟩ := Classical.not_imp.mp hnot
    obtain ⟨rest, hrest⟩ := List.head?_eq_some_iff.mp he
    have hpos : decide (0 < (c.rest.takeWhile Byte.isDigit).length) = true := by
      simp [hrest, (Bool.not_eq_false _).mp hdigit]
    simp only [digits, bind_eq, ahead_eq, require_eq, hpos, ↓reduceIte, take_eq, pure_eq] at h
    cases h

theorem isDigit_flat (hb : Byte.isDigit b = true) :
    (Flat b ∧ Byte.isBlank b = false) ∧ isIdentContinue b = true := by
  have hall : ∀ b : UInt8, Byte.isDigit b = true → ((b ≠ Byte.quote ∧ b ≠ Byte.openBrace ∧
      b ≠ Byte.closeBrace ∧ b ≠ Byte.hash ∧ b ≠ Byte.slash) ∧ Byte.isBlank b = false) ∧
      isIdentContinue b = true :=
    Byte.forall_of_lt (by decide +kernel)
  exact hall b hb

theorem not_isDigit_ends : ∀ b ∈ valueEnds, ¬ Byte.isDigit b = true :=
  forall_mem_of_all rfl

/-- What joins a digit. -/
abbrev JoinsDigit (e : UInt8) : Prop := isIdentContinue e = true ∨ e = Byte.dot

theorem retrace_digits {value : List Char} (hends : Ends behind)
    (h : Tracks behind (.within (.code braces) outer) text c c')
    (hrun : digits c = .ok (value, d)) :
    ∃ text' d', digits c' = .ok (value, d') ∧
      Tracks behind (.within (.code braces) outer) text' d d' ∧
      d'.rest.length < c'.rest.length ∧ Beside text' JoinsDigit d' := by
  obtain ⟨word, hrest, hne, hword, hend, rfl⟩ := digits_eq_ok hrun
  have hinside : ∃ text', text = word ++ text' ∧ d.rest = text' ++ behind := by
    rw [h.rest] at hrest
    rcases List.append_eq_append_iff.mp hrest with ⟨others, hothers, hbehind⟩ | ⟨text', htext, hd⟩
    · cases others with
      | nil => exact ⟨[], by simpa using hothers.symm, by simpa using hbehind.symm⟩
      | cons e others =>
          exact absurd (hword e (by simp [hothers]))
            (not_isDigit_ends e (hends e (by simp [hbehind])))
    · exact ⟨text', htext, hd⟩
  obtain ⟨text', rfl, hd⟩ := hinside
  obtain ⟨hpasses, hrest'⟩ := Tracks.run h hne fun e he => (isDigit_flat (hword e he)).1
  have hbeside : ∀ pos, Beside text' JoinsDigit
      ⟨pos, squeezeBehind (uncommented (.within (.code braces) outer) text')⟩ := by
    intro pos e he hjoins
    have hlast := List.getLast?_eq_some_getLast hne
    have hdigit := hword _ (List.getLast_mem hne)
    refine Fit.run_joins h.fit (fun e he => (isDigit_flat (hword e he)).1) hlast he ?_
    exact hjoins.imp (⟨(isDigit_flat hdigit).2, ·⟩) fun hdot => Or.inl ⟨hdigit, hdot⟩
  have hend' := (hbeside 0).head?_eq_false
    (fun _ hdigit => Or.inl (isDigit_flat hdigit).2) (hd ▸ hend)
  obtain ⟨d', hdigits, hd'⟩ := digits_ok hrest' hne hword hend'
  refine ⟨text', d', hdigits, ⟨hd, hpasses.fit, Or.inr hd'⟩, ?_,
    fun e he => hbeside 0 e (hd' ▸ he)⟩
  have hpos := List.length_pos_of_ne_nil hne
  rw [hrest', hd', List.length_append]
  omega

theorem fraction_miss (h : c.rest.head? ≠ some Byte.dot) : fraction c = .error .miss := by
  simp only [fraction, bind_eq, byte_miss h]

theorem fraction_cases (c : Cursor) :
    (c.rest.head? ≠ some Byte.dot ∧ fraction c = .error .miss) ∨
      ∃ rest c₁, c.rest = Byte.dot :: rest ∧ c₁.rest = rest ∧ byte Byte.dot c = .ok (⟨⟩, c₁) ∧
        ((∃ value d, digits c₁ = .ok (value, d) ∧ fraction c = .ok (value, d)) ∨
          (fraction c = .error .miss ∧ ∀ e ∈ c₁.rest.head?, Byte.isDigit e = false)) := by
  by_cases hdot : c.rest.head? = some Byte.dot
  · obtain ⟨rest, hrest⟩ := List.head?_eq_some_iff.mp hdot
    obtain ⟨c₁, hbyte, hc₁⟩ := byte_ok hrest
    refine Or.inr ⟨rest, c₁, hrest, hc₁, hbyte, ?_⟩
    cases hdigits : digits c₁ with
    | ok pair => exact Or.inl ⟨pair.1, pair.2, rfl, bind_ok hbyte hdigits⟩
    | error refusal =>
        obtain ⟨rfl, hhead⟩ := digits_eq_error hdigits
        exact Or.inr ⟨by simp only [fraction, bind_eq, hbyte, hdigits], hhead⟩
  · exact Or.inl ⟨hdot, fraction_miss hdot⟩

theorem optional_fraction_none (h : fraction c = .error .miss) :
    Parser.optional fraction c = .ok (none, c) := by
  rw [optional_eq, h]

theorem retrace_fraction {result : Option (List Char)} (hends : Ends behind)
    (h : Tracks behind (.within (.code braces) outer) text c c')
    (hbeside : Beside text JoinsDigit c')
    (hrun : Parser.optional fraction c = .ok (result, d)) :
    ∃ text' d', Parser.optional fraction c' = .ok (result, d') ∧
      Tracks behind (.within (.code braces) outer) text' d d' ∧
      d'.rest.length ≤ c'.rest.length ∧ Beside text' JoinsDigit d' := by
  have hsame : fraction c = .error .miss → fraction c' = .error .miss →
      ∃ text' d', Parser.optional fraction c' = .ok (result, d') ∧
        Tracks behind (.within (.code braces) outer) text' d d' ∧
        d'.rest.length ≤ c'.rest.length ∧ Beside text' JoinsDigit d' := by
    intro hmiss hmiss'
    rw [optional_fraction_none hmiss] at hrun
    cases hrun
    exact ⟨text, c', optional_fraction_none hmiss', h, Nat.le_refl _, hbeside⟩
  rcases fraction_cases c with ⟨hdot, hmiss⟩ | ⟨rest, c₁, hrest, hc₁, hbyte, hcases⟩
  · refine hsame hmiss (fraction_miss fun hdot' => hdot ?_)
    obtain ⟨rest, rfl⟩ := List.head?_eq_some_iff.mp (hbeside _ hdot' (Or.inr rfl))
    rw [h.rest]
    rfl
  · obtain ⟨text', rfl, hinside⟩ := hends.inside (by decide) (h.rest.symm.trans hrest)
    have hc₁' : c₁.rest = text' ++ behind := hc₁.trans hinside
    obtain ⟨-, c₁', hbyte', htracks, hlength, hjoins⟩ := retrace_byte h (by decide) hbyte hc₁'
    rcases hcases with ⟨value, c₂, hdigits, hfraction⟩ | ⟨hmiss, hhead⟩
    · obtain ⟨text'', c₂', hdigits', htracks', hlength', hbeside'⟩ :=
        retrace_digits hends htracks hdigits
      have hfraction' : fraction c' = .ok (value, c₂') := bind_ok hbyte' hdigits'
      rw [optional_eq, hfraction] at hrun
      cases hrun
      refine ⟨text'', c₂', ?_, htracks', by omega, hbeside'⟩
      rw [optional_eq, hfraction']
    · have hhead' := hjoins.head?_eq_false (p := Byte.isDigit)
        (fun _ hdigit => Or.inr (Or.inr ⟨rfl, hdigit⟩)) (hc₁' ▸ hhead)
      exact hsame hmiss (by simp only [fraction, bind_eq, hbyte', digits_miss hhead'])

/-- A byte that marks an exponent. -/
def IsExponentMark (b : UInt8) : Prop := b = 0x65 ∨ b = 0x45

/-- Reads what stands between the mark of an exponent and its digits. -/
inductive ExponentSign : Cursor → Bool → Cursor → Prop
  | minus {c d : Cursor} (h : flag Byte.minus c = .ok (true, d)) : ExponentSign c true d
  | other {c c₁ d : Cursor} {plus : Bool} (h : flag Byte.minus c = .ok (false, c₁))
      (hplus : flag Byte.plus c₁ = .ok (plus, d)) : ExponentSign c false d

def signed (negative : Bool) (digits : List Char) : Int :=
  if negative then -(Decimal.readNat digits : Int) else Decimal.readNat digits

theorem exponent_ok {mark : UInt8} {c₁ c₂ : Cursor} {negative : Bool} {value : List Char}
    (hmark : IsExponentMark mark) (hrest : c.rest = mark :: rest) (hc₁ : c₁ = ⟨c.pos + 1, rest⟩)
    (hsign : ExponentSign c₁ negative c₂) (hdigits : digits c₂ = .ok (value, d)) :
    exponent c = .ok (some (signed negative value), d) := by
  have hhead : c.rest.head? = some 0x65 ∨ c.rest.head? = some 0x45 := by
    rw [hrest]
    exact hmark.imp (congrArg some) (congrArg some)
  have hcursor : (⟨c.pos + 1, c.rest.drop 1⟩ : Cursor) = c₁ := by
    rw [hc₁, hrest]
    rfl
  cases hsign with
  | minus h =>
      simp only [exponent, bind_eq, ahead_eq, hhead, ↓reduceIte, discard_eq, take_eq, hcursor, h,
        Bool.not_true, Bool.false_eq_true, hdigits, pure_eq, signed]
  | other h hplus =>
      simp only [exponent, bind_eq, ahead_eq, hhead, ↓reduceIte, discard_eq, take_eq, hcursor, h,
        Bool.not_false, hplus, hdigits, pure_eq, signed, Bool.false_eq_true]

theorem exponent_none (h : ∀ e ∈ c.rest.head?, ¬ IsExponentMark e) :
    exponent c = .ok (none, c) := by
  have hhead : ¬ (c.rest.head? = some 0x65 ∨ c.rest.head? = some 0x45) := by
    rintro (hhead | hhead)
    · exact h _ hhead (Or.inl rfl)
    · exact h _ hhead (Or.inr rfl)
  simp only [exponent, bind_eq, ahead_eq, hhead, ↓reduceIte, pure_eq]

theorem exponent_eq_ok {result : Option Int} (h : exponent c = .ok (result, d)) :
    ((∀ e ∈ c.rest.head?, ¬ IsExponentMark e) ∧ result = none ∧ d = c) ∨
    ∃ mark rest negative c₂ value, IsExponentMark mark ∧ c.rest = mark :: rest ∧
      ExponentSign ⟨c.pos + 1, rest⟩ negative c₂ ∧ digits c₂ = .ok (value, d) ∧
      result = some (signed negative value) := by
  by_cases hhead : ∀ e ∈ c.rest.head?, ¬ IsExponentMark e
  · rw [exponent_none hhead] at h
    cases h
    exact Or.inl ⟨hhead, rfl, rfl⟩
  · obtain ⟨mark, hnot⟩ := not_forall.mp hhead
    obtain ⟨he, hmark⟩ := Classical.not_imp.mp hnot
    obtain ⟨rest, hrest⟩ := List.head?_eq_some_iff.mp he
    have hmark := not_not.mp hmark
    have hhead : c.rest.head? = some 0x65 ∨ c.rest.head? = some 0x45 := by
      rw [hrest]
      exact hmark.imp (congrArg some) (congrArg some)
    have hcursor : (⟨c.pos + 1, c.rest.drop 1⟩ : Cursor) = ⟨c.pos + 1, rest⟩ := by rw [hrest]; rfl
    refine Or.inr ⟨mark, rest, ?_⟩
    simp only [exponent, bind_eq, ahead_eq, hhead, ↓reduceIte, discard_eq, take_eq, hcursor] at h
    cases hminus : flag Byte.minus ⟨c.pos + 1, rest⟩ with
    | error refusal => simp [hminus] at h
    | ok pair =>
        obtain ⟨negative, c₁⟩ := pair
        simp only [hminus] at h
        cases negative with
        | true =>
            simp only [Bool.not_true, Bool.false_eq_true, ↓reduceIte] at h
            obtain ⟨value, c₂, hdigits, h⟩ := bind_eq_ok.mp h
            cases h
            exact ⟨true, c₁, value, hmark, hrest, .minus hminus, hdigits, rfl⟩
        | false =>
            simp only [Bool.not_false, ↓reduceIte, Bool.false_eq_true] at h
            obtain ⟨_, c₂, hplus, h⟩ := bind_eq_ok.mp h
            obtain ⟨value, c₃, hdigits, h⟩ := bind_eq_ok.mp h
            cases h
            rw [discard_eq] at hplus
            split at hplus
            · rename_i plus c₄ hflag
              cases hplus
              exact ⟨false, _, value, hmark, hrest, .other hminus hflag, hdigits, rfl⟩
            · cases hplus

/-- The sign of an exponent is read from both texts. -/
theorem retrace_exponentSign {negative : Bool} {value : List Char} {c₂ : Cursor} {mark : UInt8}
    (hends : Ends behind) (h : Tracks behind (.within (.code braces) outer) text c c')
    (hmark : isIdentContinue mark = true) (hbeside : Beside text (Joins mark) c')
    (hsign : ExponentSign c negative c₂) (hdigits : digits c₂ = .ok (value, d)) :
    ∃ text' c₂', ExponentSign c' negative c₂' ∧
      Tracks behind (.within (.code braces) outer) text' c₂ c₂' ∧
      c₂'.rest.length ≤ c'.rest.length := by
  have hinside : ∀ {b rest}, b = Byte.minus ∨ b = Byte.plus → c.rest = b :: rest →
      ∃ text', text = b :: text' ∧ rest = text' ++ behind := by
    intro b rest hb hrest
    exact hends.inside (by rcases hb with rfl | rfl <;> decide) (h.rest.symm.trans hrest)
  cases hsign with
  | minus hminus =>
      rcases flag_eq_ok hminus with ⟨-, hrest⟩ | ⟨hvalue, -, -⟩
      · obtain ⟨text', rfl, hd⟩ := hinside (Or.inl rfl) hrest
        obtain ⟨d', hflag, htracks, hlength⟩ := retrace_flag h (by decide) hd
        exact ⟨text', d', .minus hflag, htracks, Nat.le_of_lt hlength⟩
      · cases hvalue
  | other hminus hplus =>
      rcases flag_eq_ok hminus with ⟨hvalue, -⟩ | ⟨-, rfl, hne⟩
      · cases hvalue
      · have hne' : c'.rest.head? ≠ some Byte.minus := by
          intro hhead
          obtain ⟨rest, rfl⟩ := List.head?_eq_some_iff.mp
            (hbeside _ hhead (Or.inl ⟨hmark, by decide⟩))
          exact hne (by rw [h.rest]; rfl)
        have hminus' := flag_of_ne hne'
        rcases flag_eq_ok hplus with ⟨-, hrest⟩ | ⟨-, rfl, -⟩
        · obtain ⟨text', rfl, hd⟩ := hinside (Or.inr rfl) hrest
          obtain ⟨d', hflag, htracks, hlength⟩ := retrace_flag h (by decide) hd
          exact ⟨text', d', .other hminus' hflag, htracks, Nat.le_of_lt hlength⟩
        · obtain ⟨word, hrest, hne, hword, -, -⟩ := digits_eq_ok hdigits
          obtain ⟨e, word, rfl⟩ := List.exists_cons_of_ne_nil hne
          have hdigit := hword e List.mem_cons_self
          obtain ⟨text', rfl, -⟩ :=
            hends.inside (fun he => not_isDigit_ends e he hdigit) (h.rest.symm.trans hrest)
          refine ⟨e :: text', c', .other hminus' (flag_of_ne ?_), h, Nat.le_refl _⟩
          rw [(h.byte (isDigit_flat hdigit).1).2, List.head?_cons]
          intro hplus
          rw [Option.some.inj hplus] at hdigit
          exact absurd hdigit (by decide)

theorem retrace_exponent {result : Option Int} (hends : Ends behind)
    (h : Tracks behind (.within (.code braces) outer) text c c')
    (hbeside : Beside text JoinsDigit c') (hrun : exponent c = .ok (result, d)) :
    ∃ text' d', exponent c' = .ok (result, d') ∧
      Tracks behind (.within (.code braces) outer) text' d d' ∧
      d'.rest.length ≤ c'.rest.length := by
  have hcontinue : ∀ e, IsExponentMark e → isIdentContinue e = true := by
    rintro e (rfl | rfl) <;> decide
  rcases exponent_eq_ok hrun with ⟨hhead, rfl, rfl⟩ |
    ⟨mark, rest, negative, c₂, value, hmark, hrest, hsign, hdigits, rfl⟩
  · refine ⟨text, c', exponent_none fun e he hmark => ?_, h, Nat.le_refl _⟩
    obtain ⟨rest, rfl⟩ := List.head?_eq_some_iff.mp (hbeside e he (Or.inl (hcontinue e hmark)))
    exact hhead e (by rw [h.rest]; rfl) hmark
  · obtain ⟨text', rfl, hd⟩ :=
      hends.inside (by rcases hmark with rfl | rfl <;> decide) (h.rest.symm.trans hrest)
    have hflat := flat_of_isIdentContinue (hcontinue mark hmark)
    obtain ⟨hpasses, hrest'⟩ := h.byte hflat
    have htracks : Tracks behind (.within (.code braces) outer) text' ⟨c.pos + 1, rest⟩
        ⟨c'.pos + 1, squeezeBehind (uncommented (.within (.code braces) outer) text')⟩ :=
      ⟨hd, hpasses.fit, Or.inr rfl⟩
    obtain ⟨text'', c₂', hsign', htracks', hlength⟩ :=
      retrace_exponentSign hends htracks (hcontinue mark hmark)
        (fun e' he' => joins_of_head? h.fit
          (next_flat ⟨hflat.1.1, hflat.1.2.1, hflat.1.2.2.1⟩ hflat.1.not_opens) he')
        hsign hdigits
    obtain ⟨text₃, d', hdigits', htracks'', hlength', -⟩ := retrace_digits hends htracks' hdigits
    refine ⟨text₃, d', exponent_ok hmark hrest' rfl hsign' hdigits', htracks'', ?_⟩
    rw [hrest', List.length_cons]
    simp only at hlength
    omega

/-- What a number without a sign is, by its parts: with all of them it ends at `far`, with its
whole digits alone at `near`. -/
def numberAt (whole : List Char) (fraction : Option (List Char)) (exponent : Option Int)
    (near far : Cursor) : Except Refusal (Number × Cursor) :=
  let value := (Decimal.ofParts whole (fraction.getD []) (exponent.getD 0)).toFloat
  if (fraction.isSome || exponent.isSome) && value.isFinite then .ok (.ofFloat value, far)
  else if Decimal.readNat whole < 0x1_0000_0000_0000_0000 then
    .ok (.ofInt (Decimal.readNat whole), near)
  else .error .miss

theorem numberAt_cases (whole : List Char) (fraction : Option (List Char)) (exponent : Option Int) :
    (∃ value, ∀ near far, numberAt whole fraction exponent near far = .ok (value, far)) ∨
      (∃ value, ∀ near far, numberAt whole fraction exponent near far = .ok (value, near)) ∨
      ∀ near far, numberAt whole fraction exponent near far = .error .miss := by
  simp only [numberAt]
  split
  · exact Or.inl ⟨_, fun _ _ => rfl⟩
  · split
    · exact Or.inr (Or.inl ⟨_, fun _ _ => rfl⟩)
    · exact Or.inr (Or.inr fun _ _ => rfl)

theorem unsigned_eq {c₁ c₂ c₃ : Cursor} {whole : List Char} {fraction : Option (List Char)}
    {exponent : Option Int} (hwhole : digits c = .ok (whole, c₁))
    (hfraction : Parser.optional Grammar.fraction c₁ = .ok (fraction, c₂))
    (hexponent : Grammar.exponent c₂ = .ok (exponent, c₃)) :
    unsigned c = numberAt whole fraction exponent c₁ c₃ := by
  have hbroken : brokenExponent c = .ok (false, c) := by
    simp only [brokenExponent, bind_eq, get_eq, discard_eq, hwhole, hfraction, optional_eq,
      hexponent, Option.isNone_some, set_eq, pure_eq]
  simp only [unsigned, bind_eq, hbroken, Bool.false_eq_true, ↓reduceIte, either_eq, float, hwhole,
    hfraction, hexponent, require_eq, integerNumber, integer, pure_eq, numberAt]
  cases fraction.isSome || exponent.isSome <;>
    cases (Decimal.ofParts whole (fraction.getD []) (exponent.getD 0)).toFloat.isFinite <;>
    by_cases hsmall : Decimal.readNat whole < 0x1_0000_0000_0000_0000 <;> simp [hsmall]

/-- The digits of a number go on with a fraction or with none. -/
theorem exists_fraction (c : Cursor) :
    ∃ result d, Parser.optional fraction c = .ok (result, d) := by
  rcases fraction_cases c with ⟨-, hmiss⟩ | ⟨_, _, -, -, -, ⟨value, d, -, hfraction⟩ | ⟨hmiss, -⟩⟩
  · exact ⟨none, c, optional_fraction_none hmiss⟩
  · exact ⟨some value, d, by rw [optional_eq, hfraction]⟩
  · exact ⟨none, c, optional_fraction_none hmiss⟩

theorem unsigned_miss (h : digits c = .error .miss) : unsigned c = .error .miss := by
  simp only [unsigned, brokenExponent, bind_eq, get_eq, discard_eq, h]

/-- An exponent without digits is an error. -/
theorem unsigned_wrong {c₁ c₂ : Cursor} {whole : List Char} {fraction : Option (List Char)}
    {refusal : Refusal} (hwhole : digits c = .ok (whole, c₁))
    (hfraction : Parser.optional Grammar.fraction c₁ = .ok (fraction, c₂))
    (hexponent : exponent c₂ = .error refusal) : unsigned c = .error .wrong := by
  cases refusal with
  | miss =>
      have hbroken : brokenExponent c = .ok (true, c) := by
        simp only [brokenExponent, bind_eq, get_eq, discard_eq, hwhole, hfraction, optional_eq,
          hexponent, Option.isNone_none, set_eq, pure_eq]
      rw [unsigned, bind_eq, hbroken]
      rfl
  | wrong =>
      simp only [unsigned, brokenExponent, bind_eq, get_eq, discard_eq, hwhole, hfraction,
        optional_eq, hexponent]

theorem unsigned_cases (c : Cursor) :
    (unsigned c = .error .miss ∧ ∀ e ∈ c.rest.head?, Byte.isDigit e = false) ∨
      unsigned c = .error .wrong ∨
      ∃ whole c₁ fraction c₂ exponent c₃, digits c = .ok (whole, c₁) ∧
        Parser.optional Grammar.fraction c₁ = .ok (fraction, c₂) ∧
        Grammar.exponent c₂ = .ok (exponent, c₃) ∧
        unsigned c = numberAt whole fraction exponent c₁ c₃ := by
  cases hwhole : digits c with
  | error refusal =>
      obtain ⟨rfl, hhead⟩ := digits_eq_error hwhole
      exact Or.inl ⟨unsigned_miss hwhole, hhead⟩
  | ok pair =>
      obtain ⟨whole, c₁⟩ := pair
      obtain ⟨fraction, c₂, hfraction⟩ := exists_fraction c₁
      cases hexponent : exponent c₂ with
      | error refusal => exact Or.inr (Or.inl (unsigned_wrong hwhole hfraction hexponent))
      | ok pair =>
          exact Or.inr (Or.inr ⟨whole, c₁, fraction, c₂, pair.1, pair.2, rfl, hfraction, hexponent,
            unsigned_eq hwhole hfraction hexponent⟩)

/-- A number without a sign is the same in both texts, or none in both. -/
theorem retrace_unsigned (hends : Ends behind)
    (h : Tracks behind (.within (.code braces) outer) text c c') :
    (∀ value d, unsigned c = .ok (value, d) → ∃ text' d', unsigned c' = .ok (value, d') ∧
      Tracks behind (.within (.code braces) outer) text' d d' ∧
      d'.rest.length < c'.rest.length) ∧
    (unsigned c = .error .miss → Beside text (fun e => Byte.isDigit e = true) c' →
      unsigned c' = .error .miss) := by
  rcases unsigned_cases c with ⟨hmiss, hhead⟩ | hwrong |
    ⟨whole, c₁, fraction, c₂, exponent, c₃, hwhole, hfraction, hexponent, heq⟩
  · rw [hmiss]
    refine ⟨fun value d hrun => (by cases hrun), fun _ hbeside => ?_⟩
    exact unsigned_miss
      (digits_miss (hbeside.head?_eq_false (fun _ => id) (h.rest ▸ hhead)))
  · rw [hwrong]
    exact ⟨fun _ _ hrun => (by cases hrun), fun hmiss => (by cases hmiss)⟩
  · obtain ⟨text₁, c₁', hwhole', h₁, hlength₁, hbeside₁⟩ := retrace_digits hends h hwhole
    obtain ⟨text₂, c₂', hfraction', h₂, hlength₂, hbeside₂⟩ :=
      retrace_fraction hends h₁ hbeside₁ hfraction
    obtain ⟨text₃, c₃', hexponent', h₃, hlength₃⟩ :=
      retrace_exponent hends h₂ hbeside₂ hexponent
    rw [heq, unsigned_eq hwhole' hfraction' hexponent']
    rcases numberAt_cases whole fraction exponent with ⟨value, hvalue⟩ | ⟨value, hvalue⟩ | hmiss
    · rw [hvalue, hvalue]
      refine ⟨fun v d hrun => ?_, fun hmiss => (by cases hmiss)⟩
      cases hrun
      exact ⟨text₃, c₃', rfl, h₃, by omega⟩
    · rw [hvalue, hvalue]
      refine ⟨fun v d hrun => ?_, fun hmiss => (by cases hmiss)⟩
      cases hrun
      exact ⟨text₁, c₁', rfl, h₁, hlength₁⟩
    · rw [hmiss, hmiss]
      exact ⟨fun _ _ hrun => (by cases hrun), fun _ _ => rfl⟩

theorem number_eq_ok {value : Number} (h : number c = .ok (value, d)) :
    (∃ c₁ c₂ size, flag Byte.minus c = .ok (true, c₁) ∧ blank c₁ = .ok (⟨⟩, c₂) ∧
      unsigned c₂ = .ok (size, d) ∧ value = -size) ∨
    (flag Byte.minus c = .ok (false, c) ∧ unsigned c = .ok (value, d)) := by
  obtain ⟨negative, c₁, hflag, h⟩ := bind_eq_ok.mp h
  cases negative with
  | true =>
      obtain ⟨_, c₂, hblank, h⟩ := bind_eq_ok.mp h
      obtain ⟨size, c₃, hsize, h⟩ := bind_eq_ok.mp h
      cases h
      exact Or.inl ⟨c₁, c₂, size, hflag, hblank, hsize, rfl⟩
  | false =>
      rcases flag_eq_ok hflag with ⟨hvalue, -⟩ | ⟨-, rfl, -⟩
      · cases hvalue
      · exact Or.inr ⟨hflag, by
          simpa only [number, bind_eq, hflag, Bool.false_eq_true, ↓reduceIte] using h⟩

theorem retrace_number {value : Number} (hends : Ends behind)
    (h : Tracks behind (.within (.code braces) outer) text c c') (hsettled : Settled text)
    (hrun : number c = .ok (value, d)) (hd : d.rest = text' ++ behind) :
    ∃ d', number c' = .ok (value, d') ∧
      Tracks behind (.within (.code braces) outer) text' d d' ∧
      d'.rest.length < c'.rest.length := by
  have hsame : ∀ {text'' : Bytes}, d.rest = text'' ++ behind → text'' = text' := fun heq =>
    List.append_cancel_right (heq.symm.trans hd)
  rcases number_eq_ok hrun with ⟨c₁, c₂, size, hflag, hblank, hsize, rfl⟩ | ⟨hflag, hsize⟩
  · rcases flag_eq_ok hflag with ⟨-, hrest⟩ | ⟨hvalue, -⟩
    · obtain ⟨text₁, rfl, hc₁⟩ := hends.minus_inside h hrest
      obtain ⟨text₂, hc₂⟩ := (advances_unsigned c₂ hsize).inside hd
      obtain ⟨c₁', hflag', h₁, hlength₁⟩ := retrace_flag h (by decide) hc₁
      obtain ⟨c₂', hblank', h₂, -, -, hlength₂, -⟩ := retrace_blank h₁ hblank hc₂ false
      obtain ⟨text'', d', hsize', htracks, hlength⟩ := (retrace_unsigned hends h₂).1 _ _ hsize
      obtain rfl := hsame htracks.rest
      exact ⟨d', bind_ok hflag' (bind_ok hblank' (bind_ok hsize' rfl)), htracks, by omega⟩
    · cases hvalue
  · rcases flag_eq_ok hflag with ⟨hvalue, -⟩ | ⟨-, -, hne⟩
    · cases hvalue
    · obtain ⟨text'', d', hsize', htracks, hlength⟩ := (retrace_unsigned hends h).1 _ _ hsize
      obtain rfl := hsame htracks.rest
      have hne' : c'.rest.head? ≠ some Byte.minus := by
        rw [h.head?_settled hsettled]
        intro hhead
        obtain ⟨rest, rfl⟩ := List.head?_eq_some_iff.mp hhead
        exact hne (by rw [h.rest]; rfl)
      exact ⟨d', bind_ok (flag_of_ne hne') hsize', htracks, hlength⟩

/-- Where the text has no number, the squeezed text has none. -/
theorem number_miss (hends : Ends behind)
    (h : Tracks behind (.within (.code braces) outer) text c c') (hsettled : Settled text)
    (hrun : number c = .error .miss)
    (hsigned : ∀ c₁ c₂, flag Byte.minus c = .ok (true, c₁) → blank c₁ = .ok (⟨⟩, c₂) →
      ∃ text₂, c₂.rest = text₂ ++ behind ∧ Settled text₂) :
    number c' = .error .miss := by
  by_cases hhead : c.rest.head? = some Byte.minus
  · obtain ⟨rest, hrest⟩ := List.head?_eq_some_iff.mp hhead
    obtain ⟨c₁, hflag, hc₁⟩ := flag_ok hrest
    obtain ⟨c₂, hblank⟩ : ∃ c₂, blank c₁ = .ok (⟨⟩, c₂) := ⟨_, separator_eq false c₁⟩
    obtain ⟨text₂, hc₂, hsettled₂⟩ := hsigned c₁ c₂ hflag hblank
    obtain ⟨text₁, rfl, hc₁⟩ := hends.minus_inside h (hc₁ ▸ hrest)
    obtain ⟨c₁', hflag', h₁, -⟩ := retrace_flag h (by decide) hc₁
    obtain ⟨c₂', hblank', h₂, -⟩ := retrace_blank h₁ hblank hc₂ false
    change blank c₁' = _ at hblank'
    have hsize : unsigned c₂ = .error .miss := by
      simp only [number, bind_eq, hflag, ↓reduceIte, hblank] at hrun
      split at hrun
      · cases hrun
      · rename_i hsize
        rw [hsize, hrun]
    have hsize' := (retrace_unsigned hends h₂).2 hsize fun e he _ => by
      rw [← h₂.head?_settled hsettled₂]
      exact he
    simp only [number, bind_eq, hflag', ↓reduceIte, hblank', hsize']
  · have hhead' : c'.rest.head? ≠ some Byte.minus := by
      rw [h.head?_settled hsettled]
      intro hminus
      obtain ⟨rest, rfl⟩ := List.head?_eq_some_iff.mp hminus
      exact hhead (by rw [h.rest]; rfl)
    have hsize : unsigned c = .error .miss := by
      simpa only [number, bind_eq, flag_of_ne hhead, Bool.false_eq_true, ↓reduceIte] using hrun
    have hsize' := (retrace_unsigned hends h).2 hsize fun e he _ => by
      rw [← h.head?_settled hsettled]
      exact he
    simp only [number, bind_eq, flag_of_ne hhead', Bool.false_eq_true, ↓reduceIte, hsize']

end

end HclToJson.Grammar
