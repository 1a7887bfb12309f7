import Mathlib.Tactic.Common
import HclToJson.Proofs.Bytes
import HclToJson.Text.Utf8

namespace HclToJson.Text

namespace Reading

/-- What a reader can be in: the bytes that can go on a character are none of ASCII, and they make a
character of it that is none of ASCII either. -/
def Proper : Reading → Prop
  | ready => True
  | inside owed low _ value =>
      0x80 ≤ low ∧ 2 ≤ if owed = 0 then value else value * 64 + (low.toNat - 0x80)

instance : DecidablePred Proper
  | ready => inferInstanceAs (Decidable True)
  | inside .. => inferInstanceAs (Decidable (_ ∧ _))

theorem proper_first (b : UInt8) : (first b).1.Proper :=
  Byte.forall_of_lt (p := fun b => (first b).1.Proper) (by decide +kernel) b

theorem Proper.next {reading : Reading} (h : reading.Proper) (b : UInt8) :
    (reading.next b).1.Proper := by
  cases reading with
  | ready => exact proper_first b
  | inside owed low high value =>
      by_cases hb : low ≤ b ∧ b ≤ high
      · cases owed with
        | zero =>
            simp only [Reading.next, hb, and_self, ↓reduceIte]
            trivial
        | succ owed =>
            have hvalue : 2 ≤ value * 64 + (b.toNat - 0x80) := by
              have hlow := UInt8.le_iff_toNat_le.mp hb.1
              have hsum : 2 ≤ value * 64 + (low.toNat - 0x80) := h.2
              omega
            simp only [Reading.next, hb, and_self, ↓reduceIte]
            refine ⟨UInt8.le_refl _, ?_⟩
            split <;> omega
      · simpa only [Reading.next, hb, ↓reduceIte] using proper_first b

theorem next_ascii {reading : Reading} (h : reading.Proper) {b : UInt8} (hb : b ≤ 0x7F) :
    reading.next b = (ready, reading.finish ++ [Char.ofNat b.toNat]) := by
  have hfirst : first b = (ready, [Char.ofNat b.toNat]) := by rw [first, if_pos hb]
  cases reading with
  | ready => exact hfirst
  | inside owed low high value =>
      have hout : ¬ (low ≤ b ∧ b ≤ high) := by
        rintro ⟨hlow, -⟩
        have hle : (0x80 : UInt8) ≤ 0x7F := UInt8.le_trans h.1 (UInt8.le_trans hlow hb)
        exact absurd hle (by decide)
      simp only [Reading.next, hout, ↓reduceIte, hfirst]
      rfl

/-- The byte behind the first one of a character that is worth `n`. -/
abbrev tail (n : Nat) : UInt8 := UInt8.ofNat (n + 0x80)

theorem toNat_tail {n : Nat} (h : n < 64) : (tail n).toNat = n + 0x80 := by
  rw [UInt8.toNat_ofNat']
  omega

theorem first_of_two : ∀ n < 32, 2 ≤ n →
    first (UInt8.ofNat (n + 0xC0)) = (inside 0 0x80 0xBF n, []) := by
  decide

theorem first_of_three : ∀ n < 16, first (UInt8.ofNat (n + 0xE0)) =
    (inside 1 (if n = 0 then 0xA0 else 0x80) (if n = 0xD then 0x9F else 0xBF) n, []) := by
  decide

theorem first_of_four : ∀ n < 5, first (UInt8.ofNat (n + 0xF0)) =
    (inside 2 (if n = 0 then 0x90 else 0x80) (if n = 4 then 0x8F else 0xBF) n, []) := by
  decide

theorem next_tail {owed value n : Nat} {low high : UInt8} (hn : n < 64)
    (hlow : low.toNat ≤ n + 0x80) (hhigh : n + 0x80 ≤ high.toNat) :
    (inside owed low high value).next (tail n) =
      match owed with
      | 0 => (ready, [Char.ofNat (value * 64 + n)])
      | owed + 1 => (inside owed 0x80 0xBF (value * 64 + n), []) := by
  have hrange : low ≤ tail n ∧ tail n ≤ high := by
    rw [UInt8.le_iff_toNat_le, UInt8.le_iff_toNat_le, toNat_tail hn]
    exact ⟨hlow, hhigh⟩
  cases owed <;>
    simp only [Reading.next, hrange, and_self, ↓reduceIte, toNat_tail hn, Nat.add_sub_cancel]

theorem run_ascii {n : Nat} (h : n ≤ 0x7F) (rest : Bytes) :
    run ready (UInt8.ofNat n :: rest) = Char.ofNat n :: run ready rest := by
  have hn : (UInt8.ofNat n).toNat = n := by
    rw [UInt8.toNat_ofNat']
    omega
  have hb : UInt8.ofNat n ≤ 0x7F := by
    rw [UInt8.le_iff_toNat_le, hn]
    exact h
  simp only [run, Reading.next, first, hb, ↓reduceIte, hn, List.cons_append, List.nil_append]

theorem run_two {n m : Nat} (hn : 2 ≤ n ∧ n < 32) (hm : m < 64) (rest : Bytes) :
    run ready (UInt8.ofNat (n + 0xC0) :: tail m :: rest) =
      Char.ofNat (n * 64 + m) :: run ready rest := by
  have hlast : (inside 0 0x80 0xBF n).next (tail m) = (ready, [Char.ofNat (n * 64 + m)]) :=
    next_tail hm (by simp) (by simp; omega)
  rw [run, Reading.next, first_of_two n hn.2 hn.1, run, hlast]
  rfl

theorem run_three {n m k : Nat} (hn : n < 16) (hm : m < 64) (hk : k < 64)
    (hlow : n = 0 → 32 ≤ m) (hhigh : n = 0xD → m < 32) (rest : Bytes) :
    run ready (UInt8.ofNat (n + 0xE0) :: tail m :: tail k :: rest) =
      Char.ofNat ((n * 64 + m) * 64 + k) :: run ready rest := by
  have hsecond : (inside 1 (if n = 0 then 0xA0 else 0x80) (if n = 0xD then 0x9F else 0xBF) n).next
      (tail m) = (inside 0 0x80 0xBF (n * 64 + m), []) := by
    refine next_tail hm ?_ ?_
    · split <;> simp; omega
    · split <;> simp <;> omega
  have hlast : (inside 0 0x80 0xBF (n * 64 + m)).next (tail k) =
      (ready, [Char.ofNat ((n * 64 + m) * 64 + k)]) :=
    next_tail hk (by simp) (by simp; omega)
  rw [run, Reading.next, first_of_three n hn, run, hsecond, run, hlast]
  rfl

theorem run_four {n m k l : Nat} (hn : n < 5) (hm : m < 64) (hk : k < 64) (hl : l < 64)
    (hlow : n = 0 → 16 ≤ m) (hhigh : n = 4 → m < 16) (rest : Bytes) :
    run ready (UInt8.ofNat (n + 0xF0) :: tail m :: tail k :: tail l :: rest) =
      Char.ofNat (((n * 64 + m) * 64 + k) * 64 + l) :: run ready rest := by
  have hsecond : (inside 2 (if n = 0 then 0x90 else 0x80) (if n = 4 then 0x8F else 0xBF) n).next
      (tail m) = (inside 1 0x80 0xBF (n * 64 + m), []) := by
    refine next_tail hm ?_ ?_
    · split <;> simp; omega
    · split <;> simp <;> omega
  have hthird : (inside 1 0x80 0xBF (n * 64 + m)).next (tail k) =
      (inside 0 0x80 0xBF ((n * 64 + m) * 64 + k), []) :=
    next_tail hk (by simp) (by simp; omega)
  have hlast : (inside 0 0x80 0xBF ((n * 64 + m) * 64 + k)).next (tail l) =
      (ready, [Char.ofNat (((n * 64 + m) * 64 + k) * 64 + l)]) :=
    next_tail hl (by simp) (by simp; omega)
  rw [run, Reading.next, first_of_four n hn, run, hsecond, run, hthird, run, hlast]
  rfl

theorem run_utf8EncodeChar (c : Char) (rest : Bytes) :
    run ready (String.utf8EncodeChar c ++ rest) = c :: run ready rest := by
  have hvalid : c.toNat < 0xD800 ∨ (0xDFFF < c.toNat ∧ c.toNat < 0x110000) := c.valid
  have hc : ∀ n, n = c.toNat → Char.ofNat n = c := fun n h => h ▸ Char.ofNat_toNat c
  rw [String.utf8EncodeChar.eq_1, Char.toNat_val]
  split
  · rename_i hone
    rw [List.singleton_append, run_ascii hone, Char.ofNat_toNat]
  · split
    · simp only [List.cons_append, List.nil_append]
      rw [run_two ⟨by omega, by omega⟩ (by omega), hc _ (by omega)]
    · split
      · simp only [List.cons_append, List.nil_append]
        rw [run_three (by omega) (by omega) (by omega) (by omega) (by omega), hc _ (by omega)]
      · simp only [List.cons_append, List.nil_append]
        rw [run_four (by omega) (by omega) (by omega) (by omega) (by omega) (by omega),
          hc _ (by omega)]

end Reading

theorem run_encode (text : List Char) (rest : Bytes) :
    Reading.run .ready (text.flatMap String.utf8EncodeChar ++ rest) =
      text ++ Reading.run .ready rest := by
  induction text with
  | nil => rfl
  | cons c text ih =>
      rw [List.flatMap_cons, List.append_assoc, Reading.run_utf8EncodeChar, ih, List.cons_append]

theorem decode_encode (text : String) : decode (encode text) = text.toList := by
  have hrun := run_encode text.toList []
  rw [List.append_nil] at hrun
  rw [decode, encode, hrun]
  exact List.append_nil _

theorem ofBytes_encode (text : String) : ofBytes (encode text) = text := by
  rw [ofBytes, decode_encode, String.ofList_toList]

theorem encode_append (front back : String) :
    encode (front ++ back) = encode front ++ encode back := by
  rw [encode, encode, encode, String.toList_append, List.flatMap_append]

end HclToJson.Text
