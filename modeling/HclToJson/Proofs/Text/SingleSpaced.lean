import Mathlib.Data.List.Chain
import HclToJson.Proofs.Text.Normalize

namespace HclToJson.Text

structure SingleSpaced (text : List Char) : Prop where
  head : ∀ c ∈ text.head?, isBlank c = false
  last : ∀ c ∈ text.getLast?, isBlank c = false
  space : ∀ c ∈ text, isBlank c = true → c = ' '
  apart : text.IsChain fun c d => ¬ (isBlank c = true ∧ isBlank d = true)

theorem singleSpaced_word {word : List Char} (h : ∀ c ∈ word, isBlank c = false) :
    SingleSpaced word where
  head c hc := h c (List.mem_of_mem_head? hc)
  last c hc := h c (List.mem_of_getLast? hc)
  space c hc hblank := by simp [h c hc] at hblank
  apart := by
    induction word with
    | nil => exact .nil
    | cons c word ih =>
        obtain ⟨hc, hword⟩ := List.forall_mem_cons.mp h
        exact (ih hword).cons fun d hd => by simp [hc]

/-- One more word in front of a text, with a space between. -/
theorem SingleSpaced.cons_word {word text : List Char} (h : SingleSpaced text) (hne : text ≠ [])
    (hword : IsWord word) : SingleSpaced (word ++ ' ' :: text) := by
  have hw := singleSpaced_word hword.unspaced
  refine ⟨?_, ?_, ?_, ?_⟩
  · rw [List.head?_append_of_ne_nil _ hword.ne_nil]
    exact hw.head
  · intro c hc
    rw [List.getLast?_append_cons, List.getLast?_cons_of_ne_nil hne] at hc
    exact h.last c hc
  · intro c hc hblank
    rcases List.mem_append.mp hc with hc | hc
    · exact hw.space c hc hblank
    · rcases List.mem_cons.mp hc with rfl | hc
      · rfl
      · exact h.space c hc hblank
  · refine List.isChain_append.mpr ⟨hw.apart, h.apart.cons fun d hd => ?_, ?_⟩
    · simp [h.head d hd]
    · intro c hc d _
      simp [hw.last c hc]

theorem singleSpaced_intercalate {texts : List (List Char)} (h : ∀ word ∈ texts, IsWord word) :
    SingleSpaced ([' '].intercalate texts) := by
  induction texts with
  | nil => exact singleSpaced_word (by simp)
  | cons word others ih =>
      obtain ⟨hword, hothers⟩ := List.forall_mem_cons.mp h
      cases others with
      | nil => simpa using singleSpaced_word hword.unspaced
      | cons next others =>
          have hrest : [' '].intercalate (next :: others) ≠ [] := by
            have hnext := (List.forall_mem_cons.mp hothers).1.ne_nil
            cases others <;> simp [List.intercalate_cons_cons, hnext]
          rw [List.intercalate_cons_cons, List.append_assoc, List.singleton_append]
          exact (ih hothers).cons_word hrest hword

theorem singleSpaced_collapse (text : List Char) : SingleSpaced (collapse text) :=
  singleSpaced_intercalate fun _ hword => isWord_of_mem_words hword

end HclToJson.Text
