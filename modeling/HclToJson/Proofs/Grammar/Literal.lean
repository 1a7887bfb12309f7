import HclToJson.Grammar.Lexeme

namespace HclToJson.Grammar

/-- A byte that may stand behind the backslash of an escape. -/
abbrev EscapeByte (b : UInt8) : Prop :=
  b ∈ [Byte.quote, Byte.backslash, Byte.slash, 0x62, 0x66, 0x6E, 0x72, 0x74, 0x75, 0x55]

theorem isSome_hexDigit? {digits : Bytes} {value : Nat} (h : hexValue? digits = some value) :
    ∀ b ∈ digits, (Byte.hexDigit? b).isSome = true := by
  have hfold : ∀ start : Option Nat, (digits.foldl
      (fun value b => do return (← value) * 16 + (← Byte.hexDigit? b)) start).isSome = true →
      start.isSome = true ∧ ∀ b ∈ digits, (Byte.hexDigit? b).isSome = true := by
    clear h
    induction digits with
    | nil => exact fun start hstart => ⟨hstart, List.forall_mem_nil _⟩
    | cons b digits ih =>
        intro start hstart
        obtain ⟨hfirst, hothers⟩ := ih _ hstart
        cases start with
        | none => cases hfirst
        | some value =>
            cases hdigit : Byte.hexDigit? b with
            | none => simp [hdigit] at hfirst
            | some digit => exact ⟨rfl, List.forall_mem_cons.mpr ⟨by rw [hdigit]; rfl, hothers⟩⟩
  exact (hfold (some 0) (by rw [← hexValue?, h]; rfl)).2

theorem escape?_short (digits rest : Bytes) (hlength : digits.length = 4) :
    escape? (Byte.backslash :: 0x75 :: (digits ++ rest)) =
      ((hexValue? digits).bind codePoint?).map ((4 + 2, ·)) := by
  have htake : (digits ++ rest).take 4 = digits := by rw [← hlength, List.take_left]
  have hlong : 4 ≤ (digits ++ rest).length := by
    rw [List.length_append]
    omega
  refine (escape?.eq_1 0x75 (digits ++ rest)).trans ?_
  iterate 8 rw [if_neg (by decide)]
  rw [if_pos ⟨rfl, hlong⟩, htake]

theorem escape?_long (digits rest : Bytes) (hlength : digits.length = 8) :
    escape? (Byte.backslash :: 0x55 :: (digits ++ rest)) =
      ((hexValue? digits).bind codePoint?).map ((8 + 2, ·)) := by
  have htake : (digits ++ rest).take 8 = digits := by rw [← hlength, List.take_left]
  have hlong : 8 ≤ (digits ++ rest).length := by
    rw [List.length_append]
    omega
  refine (escape?.eq_1 0x55 (digits ++ rest)).trans ?_
  iterate 8 rw [if_neg (by decide)]
  rw [if_neg fun h => absurd h.1 (by decide), if_pos ⟨rfl, hlong⟩, htake]

/-- An escape is a backslash, a byte that tells which one it is, and digits; it does not depend on
what is behind it. -/
theorem escape?_eq_some {text : Bytes} {n : Nat} {c : Char} (h : escape? text = some (n, c)) :
    ∃ b digits rest, text = Byte.backslash :: b :: (digits ++ rest) ∧ n = digits.length + 2 ∧
      EscapeByte b ∧ (∀ d ∈ digits, (Byte.hexDigit? d).isSome = true) ∧
      ∀ rest', escape? (Byte.backslash :: b :: (digits ++ rest')) = some (n, c) := by
  unfold escape? at h
  split at h
  · rename_i b rest
    have hsimple : ∀ {b' c'}, b = b' → EscapeByte b' →
        (∀ rest', escape? (Byte.backslash :: b' :: rest') = some (2, c')) →
        some (2, c') = some (n, c) → ∃ b₀ digits rest₀,
          Byte.backslash :: b :: rest = Byte.backslash :: b₀ :: (digits ++ rest₀) ∧
          n = digits.length + 2 ∧ EscapeByte b₀ ∧
          (∀ d ∈ digits, (Byte.hexDigit? d).isSome = true) ∧
          ∀ rest', escape? (Byte.backslash :: b₀ :: (digits ++ rest')) = some (n, c) := by
      rintro b' c' rfl hb hall h
      cases h
      exact ⟨b, [], rest, rfl, rfl, hb, List.forall_mem_nil _, hall⟩
    have hcode : ∀ {b' m}, b = b' → EscapeByte b' → m ≤ rest.length →
        (∀ digits rest', digits.length = m →
          escape? (Byte.backslash :: b' :: (digits ++ rest')) =
            ((hexValue? digits).bind codePoint?).map ((m + 2, ·))) →
        ((hexValue? (rest.take m)).bind codePoint?).map ((m + 2, ·)) = some (n, c) →
        ∃ b₀ digits rest₀,
          Byte.backslash :: b :: rest = Byte.backslash :: b₀ :: (digits ++ rest₀) ∧
          n = digits.length + 2 ∧ EscapeByte b₀ ∧
          (∀ d ∈ digits, (Byte.hexDigit? d).isSome = true) ∧
          ∀ rest', escape? (Byte.backslash :: b₀ :: (digits ++ rest')) = some (n, c) := by
      rintro b' m rfl hb hm hall h
      have hlength : (rest.take m).length = m := List.length_take_of_le hm
      obtain ⟨c', hc', hpair⟩ := Option.map_eq_some_iff.mp h
      obtain ⟨value, hvalue, -⟩ := Option.bind_eq_some_iff.mp hc'
      cases hpair
      refine ⟨b, rest.take m, rest.drop m, by rw [List.take_append_drop], by rw [hlength], hb,
        isSome_hexDigit? hvalue, fun rest' => ?_⟩
      rw [hall _ _ hlength, h]
    split at h
    · rename_i hb
      exact hsimple hb (by decide) (fun _ => rfl) h
    split at h
    · rename_i hb
      exact hsimple hb (by decide) (fun _ => rfl) h
    split at h
    · rename_i hb
      exact hsimple hb (by decide) (fun _ => rfl) h
    split at h
    · rename_i hb
      exact hsimple hb (by decide) (fun _ => rfl) h
    split at h
    · rename_i hb
      exact hsimple hb (by decide) (fun _ => rfl) h
    split at h
    · rename_i hb
      exact hsimple hb (by decide) (fun _ => rfl) h
    split at h
    · rename_i hb
      exact hsimple hb (by decide) (fun _ => rfl) h
    split at h
    · rename_i hb
      exact hsimple hb (by decide) (fun _ => rfl) h
    split at h
    · rename_i hshort
      exact hcode hshort.1 (by decide) hshort.2 escape?_short h
    · split at h
      · rename_i hlong
        exact hcode hlong.1 (by decide) hlong.2 escape?_long h
      · cases h
  · cases h

theorem escape?_le {text : Bytes} {n : Nat} {c : Char} (h : escape? text = some (n, c)) :
    n ≤ text.length := by
  obtain ⟨b, digits, rest, rfl, rfl, -⟩ := escape?_eq_some h
  simp

theorem opensMarker_eq_true {text : Bytes} (h : opensMarker text = true) :
    ∃ b rest, text = b :: Byte.openBrace :: rest ∧ (b = Byte.dollar ∨ b = Byte.percent) := by
  unfold opensMarker at h
  split at h
  · rename_i b rest
    exact ⟨b, rest, rfl, by simpa using h⟩
  · cases h

theorem doubledMarker?_eq_some {text marker : Bytes} (h : doubledMarker? text = some marker) :
    ∃ b rest, text = b :: b :: Byte.openBrace :: rest ∧ (b = Byte.dollar ∨ b = Byte.percent) ∧
      marker = [b, Byte.openBrace] := by
  unfold doubledMarker? at h
  split at h
  · rename_i b c rest
    split at h
    · rename_i hsame
      obtain ⟨rfl, hopens⟩ := hsame
      obtain ⟨b', rest', heq, hb⟩ := opensMarker_eq_true hopens
      obtain ⟨rfl, rfl⟩ := List.cons.inj heq
      cases h
      exact ⟨b, rest', rfl, hb, rfl⟩
    · cases h
  · cases h

theorem doubledMarker?_le {text marker : Bytes} (h : doubledMarker? text = some marker) :
    3 ≤ text.length := by
  obtain ⟨b, rest, rfl, -⟩ := doubledMarker?_eq_some h
  simp

/-- A text starts with a byte of a string that stands for itself. -/
structure PlainAt (b : UInt8) (rest : Bytes) : Prop where
  doubled : doubledMarker? (b :: rest) = none
  quote : b ≠ Byte.quote
  marker : opensMarker (b :: rest) = false
  backslash : b ≠ Byte.backslash

/-- A quoted string goes on with a part of the given length, which stands for the given bytes. -/
inductive QuotedPiece : Bytes → Nat → Bytes → Prop
  | marker {text marker : Bytes} (h : doubledMarker? text = some marker) :
      QuotedPiece text 3 marker
  | escape {rest : Bytes} {n : Nat} {c : Char}
      (h : escape? (Byte.backslash :: rest) = some (n, c)) :
      QuotedPiece (Byte.backslash :: rest) n (String.utf8EncodeChar c)
  | plain {b : UInt8} {rest : Bytes} (h : PlainAt b rest) : QuotedPiece (b :: rest) 1 [b]

/-- A quoted string ends, or a marker opens in it. -/
structure QuotedStop (text : Bytes) : Prop where
  doubled : doubledMarker? text = none
  stops : ∀ b ∈ text.head?, b = Byte.quote ∨ opensMarker text = true

/-- A quoted string goes on with a backslash and a character that are no escape. -/
def BrokenEscape (text : Bytes) : Prop :=
  ∃ b rest, text = Byte.backslash :: b :: rest ∧ b < 0x80 ∧ escape? text = none

theorem QuotedPiece.le_length {text value : Bytes} {n : Nat} (h : QuotedPiece text n value) :
    n ≤ text.length := by
  cases h with
  | marker h => exact doubledMarker?_le h
  | escape h => exact escape?_le h
  | plain h => simp

theorem doubledMarker?_of_ne {b : UInt8} (h : b ≠ Byte.dollar ∧ b ≠ Byte.percent) (rest : Bytes) :
    doubledMarker? (b :: rest) = none := by
  refine Option.eq_none_iff_forall_ne_some.mpr fun marker hmarker => ?_
  obtain ⟨b', rest', heq, hb, -⟩ := doubledMarker?_eq_some hmarker
  obtain ⟨rfl, -⟩ := List.cons.inj heq
  exact hb.elim h.1 h.2

theorem opensMarker_of_ne {b : UInt8} (h : b ≠ Byte.dollar ∧ b ≠ Byte.percent) (rest : Bytes) :
    opensMarker (b :: rest) = false := by
  refine (Bool.not_eq_true _).mp fun hopens => ?_
  obtain ⟨b', rest', heq, hb⟩ := opensMarker_eq_true hopens
  obtain ⟨rfl, -⟩ := List.cons.inj heq
  exact hb.elim h.1 h.2

theorem quotedRun?_broken {text : Bytes} (h : BrokenEscape text) (b : UInt8) (fuel : Bytes) :
    quotedRun? true (b :: fuel) text = some (2, []) := by
  obtain ⟨d, rest, rfl, hd, hescape⟩ := h
  have hne : Byte.backslash ≠ Byte.quote := by decide
  have hbackslash : Byte.backslash ≠ Byte.dollar ∧ Byte.backslash ≠ Byte.percent := by decide
  rw [quotedRun?.eq_def]
  simp [doubledMarker?_of_ne hbackslash, opensMarker_of_ne hbackslash, hne, hescape,
    escapesAscii, hd]

theorem quotedRun?_piece {text value : Bytes} {n : Nat} (h : QuotedPiece text n value)
    (started : Bool) (b : UInt8) (fuel : Bytes) :
    quotedRun? started (b :: fuel) text =
      (quotedRun? true fuel (text.drop n)).map fun run => (n + run.1, value ++ run.2) := by
  cases h with
  | marker h =>
      rw [quotedRun?.eq_def]
      simp only [h]
      cases quotedRun? true fuel (text.drop 3) <;> rfl
  | @escape rest _ c h =>
      have hne : Byte.backslash ≠ Byte.quote := by decide
      have hbackslash : Byte.backslash ≠ Byte.dollar ∧ Byte.backslash ≠ Byte.percent := by decide
      rw [quotedRun?.eq_def]
      simp only [doubledMarker?_of_ne hbackslash, opensMarker_of_ne hbackslash, hne,
        Bool.false_eq_true, or_self, ↓reduceIte, h]
      cases quotedRun? true fuel ((Byte.backslash :: rest).drop n) <;> rfl
  | @plain c rest h =>
      rw [quotedRun?.eq_def]
      simp only [h.doubled, h.quote, h.marker, h.backslash, Bool.false_eq_true, or_self, ↓reduceIte]
      cases quotedRun? true fuel ((c :: rest).drop 1) <;> rfl

theorem quotedRun?_stop {text : Bytes} (h : QuotedStop text) (started : Bool) (fuel : Bytes) :
    quotedRun? started fuel text = if started then some (0, []) else none := by
  cases fuel with
  | nil => cases started <;> rfl
  | cons b fuel =>
      rw [quotedRun?.eq_def]
      cases text with
      | nil => simp only [h.doubled]
      | cons c rest => simp only [h.doubled, h.stops c rfl, ↓reduceIte]

/-- A run goes on with a part, or it is at its end; or what stands there is no escape. -/
theorem quotedRun?_cases {started : Bool} {b : UInt8} {fuel text value : Bytes} {n : Nat}
    (h : quotedRun? started (b :: fuel) text = some (n, value)) :
    (∃ m front k back, QuotedPiece text m front ∧
      quotedRun? true fuel (text.drop m) = some (k, back) ∧ n = m + k ∧ value = front ++ back) ∨
    (started = true ∧ n = 0 ∧ QuotedStop text) ∨ (started = true ∧ n = 2 ∧ BrokenEscape text) := by
  have hgo : ∀ {m front}, QuotedPiece text m front →
      ∃ m front k back, QuotedPiece text m front ∧
        quotedRun? true fuel (text.drop m) = some (k, back) ∧ n = m + k ∧
        value = front ++ back := by
    intro m front hpiece
    rw [quotedRun?_piece hpiece] at h
    obtain ⟨⟨k, back⟩, hrun, hpair⟩ := Option.map_eq_some_iff.mp h
    cases hpair
    exact ⟨m, front, k, back, hpiece, hrun, rfl, rfl⟩
  have hend : QuotedStop text → started = true ∧ n = 0 ∧ QuotedStop text := by
    intro hstop
    rw [quotedRun?_stop hstop] at h
    cases started with
    | false => cases h
    | true =>
        cases h
        exact ⟨rfl, rfl, hstop⟩
  cases hdoubled : doubledMarker? text with
  | some marker => exact Or.inl (hgo (.marker hdoubled))
  | none =>
      cases text with
      | nil => exact Or.inr (Or.inl (hend ⟨hdoubled, by simp⟩))
      | cons c rest =>
          by_cases hstop : c = Byte.quote ∨ opensMarker (c :: rest) = true
          · refine Or.inr (Or.inl (hend ⟨hdoubled, fun d hd => ?_⟩))
            obtain rfl : c = d := by simpa using hd
            exact hstop
          · obtain ⟨hquote, hopens⟩ := not_or.mp hstop
            by_cases hbackslash : c = Byte.backslash
            · subst c
              cases hescape : escape? (Byte.backslash :: rest) with
              | some pair => exact Or.inl (hgo (.escape hescape))
              | none =>
                  rw [quotedRun?.eq_def] at h
                  simp only [hdoubled, hstop, hescape, ↓reduceIte] at h
                  split at h
                  · rename_i hascii
                    obtain ⟨hstarted, hascii⟩ := (Bool.and_eq_true _ _).mp hascii
                    cases h
                    refine Or.inr (Or.inr ⟨hstarted, rfl, ?_⟩)
                    cases rest with
                    | nil => simp [escapesAscii] at hascii
                    | cons d rest => exact ⟨d, rest, rfl, by simpa [escapesAscii] using hascii,
                      hescape⟩
                  · cases h
            · exact Or.inl (hgo (.plain ⟨hdoubled, hquote, by simpa using hopens, hbackslash⟩))

theorem quotedRun?_le {started : Bool} {fuel text : Bytes} {n : Nat} {value : Bytes}
    (h : quotedRun? started fuel text = some (n, value)) : n ≤ text.length := by
  induction fuel generalizing started text n value with
  | nil =>
      cases started <;> simp [quotedRun?] at h
      omega
  | cons b fuel ih =>
      rcases quotedRun?_cases h with ⟨m, front, k, back, hpiece, hrun, rfl, -⟩ | ⟨-, rfl, -⟩ |
        ⟨-, rfl, _, rest, rfl, -⟩
      · have hm := hpiece.le_length
        have hk := ih hrun
        rw [List.length_drop] at hk
        omega
      · exact Nat.zero_le _
      · simp

/-! ### Raw text -/

/-- Raw text goes on with a part of the given length, which stands for the given bytes. -/
inductive RawPiece : Bytes → Nat → Bytes → Prop
  | marker {text marker : Bytes} (h : doubledMarker? text = some marker) : RawPiece text 3 marker
  | plain {b : UInt8} {rest : Bytes} (hdoubled : doubledMarker? (b :: rest) = none)
      (hopens : opensMarker (b :: rest) = false) : RawPiece (b :: rest) 1 [b]

/-- Raw text ends, or a marker opens in it. -/
structure RawStop (text : Bytes) : Prop where
  doubled : doubledMarker? text = none
  stops : text = [] ∨ opensMarker text = true

theorem rawPiece_or_stop (text : Bytes) : (∃ n value, RawPiece text n value) ∨ RawStop text := by
  cases hdoubled : doubledMarker? text with
  | some marker => exact Or.inl ⟨3, marker, .marker hdoubled⟩
  | none =>
      cases text with
      | nil => exact Or.inr ⟨hdoubled, Or.inl rfl⟩
      | cons b rest =>
          cases hopens : opensMarker (b :: rest) with
          | true => exact Or.inr ⟨hdoubled, Or.inr hopens⟩
          | false => exact Or.inl ⟨1, [b], .plain hdoubled hopens⟩

theorem rawRun_piece {text value : Bytes} {n : Nat} (h : RawPiece text n value)
    {stops : Bytes → Bool} (hstops : stops text = false) (b : UInt8) (fuel : Bytes) :
    rawRun stops (b :: fuel) text =
      (n + (rawRun stops fuel (text.drop n)).1, value ++ (rawRun stops fuel (text.drop n)).2) := by
  rw [rawRun.eq_def]
  cases h with
  | marker h => simp only [hstops, h, Bool.false_eq_true, ↓reduceIte]
  | plain hdoubled hopens => simp only [hstops, hdoubled, hopens, Bool.false_eq_true, ↓reduceIte]

theorem rawRun_stop {text : Bytes} (h : RawStop text) (stops : Bytes → Bool) (fuel : Bytes) :
    rawRun stops fuel text = (0, []) := by
  cases fuel with
  | nil => rfl
  | cons b fuel =>
      rw [rawRun.eq_def]
      simp only
      split
      · rfl
      · rcases h.stops with rfl | hopens
        · simp only [h.doubled]
        · cases text with
          | nil => simp only [h.doubled]
          | cons c rest => simp only [h.doubled, hopens, ↓reduceIte]

theorem rawRun_le (stops : Bytes → Bool) (fuel text : Bytes) :
    (rawRun stops fuel text).1 ≤ text.length := by
  induction fuel generalizing text with
  | nil => exact Nat.zero_le _
  | cons b fuel ih =>
      cases hstops : stops text with
      | true =>
          rw [rawRun.eq_def]
          simp [hstops]
      | false =>
          rcases rawPiece_or_stop text with ⟨n, value, hpiece⟩ | hstop
          · have hn : n ≤ text.length := by
              cases hpiece with
              | marker h => exact doubledMarker?_le h
              | plain => simp
            have hrest := ih (text.drop n)
            rw [List.length_drop] at hrest
            rw [rawRun_piece hpiece hstops]
            simp only
            omega
          · rw [rawRun_stop hstop]
            exact Nat.zero_le _

end HclToJson.Grammar
