import HclToJson.Decimal.Reading
import HclToJson.Decimal.Text

namespace HclToJson

section Run

variable {α : Type} {p : α → Bool} {front rest : List α}

theorem takeWhile_append_of_head (hfront : ∀ a ∈ front, p a = true)
    (hrest : ∀ a ∈ rest.head?, p a = false) : (front ++ rest).takeWhile p = front := by
  induction front with
  | nil =>
      cases rest with
      | nil => rfl
      | cons a rest => simp [hrest a rfl]
  | cons a front ih =>
      simp [hfront a List.mem_cons_self, ih fun b hb => hfront b (List.mem_cons_of_mem a hb)]

theorem dropWhile_append_of_head (hfront : ∀ a ∈ front, p a = true)
    (hrest : ∀ a ∈ rest.head?, p a = false) : (front ++ rest).dropWhile p = rest := by
  have happend := List.takeWhile_append_dropWhile (p := p) (l := front ++ rest)
  rw [takeWhile_append_of_head hfront hrest] at happend
  exact List.append_cancel_left happend

end Run

namespace Decimal

theorem readNat_natText (n : Nat) : readNat (natText n) = n := by
  have hdigits := Nat.ofDigitChars_ten_toDigits (n := n)
  rw [Nat.ofDigitChars_eq_foldl] at hdigits
  simpa only [readNat, natText, Nat.mul_comm] using hdigits

theorem isDigit_natText {n : Nat} : ∀ c ∈ natText n, c.isDigit = true :=
  fun _ hc => Nat.isDigit_of_mem_toDigits (by decide) (by decide) hc

theorem natText_ne_nil (n : Nat) : natText n ≠ [] := Nat.toDigits_ne_nil

theorem head?_natText {n : Nat} (h : 0 < n) : (natText n).head? ≠ some '0' := by
  induction n using Nat.strongRecOn with
  | ind n ih =>
      rw [natText, Nat.toDigits_eq_if (by decide)]
      split
      · have hdigit : n.digitChar ≠ '0' := fun heq => by
          have := Nat.digitChar_eq_zero.mp heq
          omega
        simpa using hdigit
      · have hhead := ih (n / 10) (by omega) (by omega)
        obtain ⟨d, others, hdigits⟩ := List.exists_cons_of_ne_nil (natText_ne_nil (n / 10))
        change (natText (n / 10) ++ _).head? ≠ some '0'
        rw [hdigits] at hhead ⊢
        exact hhead

/-- A zero stands alone. -/
theorem length_natText {n : Nat} (h : (natText n).head? = some '0') : (natText n).length = 1 := by
  rcases Nat.eq_zero_or_pos n with rfl | hpos
  · rfl
  · exact absurd h (head?_natText hpos)

section Characters

variable {p : Char → Prop}

/-- What holds of every character that a number is written with. -/
structure Numeric (p : Char → Prop) : Prop where
  digit (c : Char) : c.isDigit = true → p c
  minus : p '-'
  point : p '.'
  exponent : p 'e'

/-- What holds of the characters of a format, too. -/
structure Formatted (format : FloatFormat) (p : Char → Prop) : Prop extends Numeric p where
  plus : ∀ c ∈ format.exponentPlus, p c
  nan : ∀ c ∈ format.nan, p c
  infinity : ∀ c ∈ format.infinity, p c
  negativeInfinity : ∀ c ∈ format.negativeInfinity, p c

theorem Numeric.natText (h : Numeric p) (n : Nat) : ∀ c ∈ natText n, p c :=
  fun c hc => h.digit c (isDigit_natText c hc)

theorem Numeric.zeros (h : Numeric p) (n : Nat) : ∀ c ∈ List.replicate n '0', p c := by
  intro c hc
  rw [List.eq_of_mem_replicate hc]
  exact h.digit '0' rfl

theorem Numeric.intText (h : Numeric p) (value : Int) : ∀ c ∈ intText value, p c := by
  cases value with
  | ofNat n => exact h.natText n
  | negSucc n => exact List.forall_mem_cons.mpr ⟨h.minus, h.natText (n + 1)⟩

theorem Numeric.trimZeros (h : Numeric p) {digits : List Char} (hdigits : ∀ c ∈ digits, p c) :
    ∀ c ∈ trimZeros digits, p c := by
  intro c hc
  rw [Decimal.trimZeros] at hc
  split at hc
  · rw [List.mem_singleton.mp hc]
    exact h.digit '0' rfl
  · have hkept := (List.dropWhile_sublist _).subset (List.mem_reverse.mp hc)
    exact hdigits c (List.mem_reverse.mp hkept)

theorem Formatted.layout {format : FloatFormat} (h : Formatted format p) {digits : List Char}
    (hdigits : ∀ c ∈ digits, p c) (leading : Int) : ∀ c ∈ layout format digits leading, p c := by
  have hzero : p '0' := h.digit '0' rfl
  have hplus : ∀ c ∈ (if 0 ≤ leading then format.exponentPlus else []), p c := by
    split
    · exact h.plus
    · exact nofun
  unfold Decimal.layout
  split
  · simp only [List.forall_mem_append, List.forall_mem_cons]
    exact ⟨⟨hzero, h.point, h.zeros _⟩, hdigits⟩
  split
  · dsimp only
    split
    · simp only [List.forall_mem_append, List.forall_mem_cons]
      exact ⟨⟨hdigits, h.zeros _⟩, h.point, hzero, nofun⟩
    · simp only [List.forall_mem_append, List.forall_mem_cons]
      exact ⟨fun c hc => hdigits c (List.mem_of_mem_take hc), h.point,
        fun c hc => hdigits c (List.mem_of_mem_drop hc)⟩
  · simp only [List.forall_mem_append, List.forall_mem_cons]
    refine ⟨⟨?_, h.exponent, hplus⟩, h.intText leading⟩
    match digits, hdigits with
    | [], _ => exact nofun
    | [d], hdigits => exact hdigits
    | d :: next :: rest, hdigits =>
        rw [List.forall_mem_cons] at hdigits
        exact List.forall_mem_cons.mpr ⟨hdigits.1, List.forall_mem_cons.mpr ⟨h.point, hdigits.2⟩⟩

theorem Formatted.floatText {format : FloatFormat} (h : Formatted format p) (x : Float) :
    ∀ c ∈ floatText format x, p c := by
  rw [Decimal.floatText]
  split
  · split
    · exact h.nan
    · split
      · exact h.infinity
      · exact h.negativeInfinity
  · rename_i value _
    have hlayout := h.layout (h.trimZeros (h.natText (shortest value).digits))
    split
    · exact List.forall_mem_cons.mpr ⟨h.minus, hlayout _⟩
    · exact hlayout _

end Characters

end Decimal

end HclToJson
