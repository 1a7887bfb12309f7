import Mathlib.Data.List.Forall2
import HclToJson.Proofs.Text.Utf8
import HclToJson.Source

namespace HclToJson.Text

/-- The characters of a text that are not white space. -/
def inked (text : List Char) : List Char := text.filter (!isBlank ·)

theorem inked_append (front back : List Char) : inked (front ++ back) = inked front ++ inked back :=
  List.filter_append ..

theorem flatten_words (text : List Char) : (words text).flatten = inked text := by
  induction text with
  | nil => rfl
  | cons c rest ih =>
      by_cases hc : isBlank c = true
      · rw [words.eq_def, inked, List.filter_cons_of_neg (by simp [hc]), ← inked, ← ih]
        simp only [hc, ↓reduceIte]
      · rw [words.eq_def, inked, List.filter_cons_of_pos (by simpa using hc), ← inked, ← ih]
        simp only [hc, Bool.false_eq_true, ↓reduceIte]
        split
        · split <;> simp_all
        · rfl

theorem inked_intercalate (texts : List (List Char)) :
    inked ([' '].intercalate texts) = inked texts.flatten := by
  have hspace : inked [' '] = [] := rfl
  induction texts with
  | nil => rfl
  | cons first rest ih =>
      cases rest with
      | nil => simp
      | cons second rest =>
          rw [List.intercalate_cons_cons, inked_append, inked_append, hspace, ih]
          simp only [List.flatten_cons, inked_append, List.append_nil]

theorem inked_collapse (text : List Char) : inked (collapse text) = inked text := by
  have hwords : inked (words text).flatten = inked text := by
    rw [flatten_words, inked, inked, List.filter_filter]
    simp
  rw [collapse, inked_intercalate, hwords]

theorem ne_nil_of_mem_words {text word : List Char} (h : word ∈ words text) : word ≠ [] := by
  induction text generalizing word with
  | nil => simp [words] at h
  | cons c rest ih =>
      rw [words.eq_def] at h
      simp only at h
      split at h
      · exact ih h
      · split at h
        · rename_i first others hwords
          rw [hwords] at ih
          split at h
          · rcases List.mem_cons.mp h with rfl | h
            · simp
            · exact ih h
          · rcases List.mem_cons.mp h with rfl | h
            · simp
            · exact ih (List.mem_cons_of_mem _ h)
        · rcases List.mem_cons.mp h with rfl | h
          · simp
          · exact ih h

structure IsWord (word : List Char) : Prop where
  ne_nil : word ≠ []
  unspaced : ∀ c ∈ word, isBlank c = false

theorem isWord_of_mem_words {text word : List Char} (h : word ∈ words text) : IsWord word where
  ne_nil := ne_nil_of_mem_words h
  unspaced c hc := by
    have hmem : c ∈ inked text := by
      rw [← flatten_words]
      exact List.mem_flatten_of_mem h hc
    simpa using (List.mem_filter.mp hmem).2

theorem words_cons_blank {c : Char} (h : isBlank c = true) (rest : List Char) :
    words (c :: rest) = words rest := by
  rw [words.eq_def]
  simp only [h, ↓reduceIte]

/-- A word ends at white space or with the text. -/
theorem words_append {word rest : List Char} (h : IsWord word)
    (hrest : ∀ c ∈ rest.head?, isBlank c = true) : words (word ++ rest) = word :: words rest := by
  induction word with
  | nil => exact absurd rfl h.ne_nil
  | cons c word ih =>
      obtain ⟨hc, hword⟩ := List.forall_mem_cons.mp h.unspaced
      rw [List.cons_append, words.eq_def]
      simp only [hc, Bool.false_eq_true, ↓reduceIte]
      cases word with
      | nil =>
          cases rest with
          | nil => rfl
          | cons d rest =>
              have hd : isBlank d = true := hrest d rfl
              rw [List.nil_append]
              cases words (d :: rest) <;> simp [hd]
      | cons d word =>
          have hd : isBlank d = false := hword d List.mem_cons_self
          rw [ih ⟨List.cons_ne_nil d word, hword⟩, List.cons_append]
          simp [hd]

theorem words_intercalate {texts : List (List Char)} (h : ∀ word ∈ texts, IsWord word) :
    words ([' '].intercalate texts) = texts := by
  have hspace : isBlank ' ' = true := rfl
  induction texts with
  | nil => rfl
  | cons word others ih =>
      obtain ⟨hword, hothers⟩ := List.forall_mem_cons.mp h
      cases others with
      | nil =>
          have hlast : words (word ++ []) = [word] := words_append hword nofun
          rw [List.intercalate_singleton, ← List.append_nil word, hlast, List.append_nil]
      | cons next others =>
          rw [List.intercalate_cons_cons, List.append_assoc,
            words_append hword (by simpa using hspace), List.singleton_append,
            words_cons_blank hspace, ih hothers]

theorem words_collapse (text : List Char) : words (collapse text) = words text :=
  words_intercalate fun _ hword => isWord_of_mem_words hword

theorem collapse_collapse (text : List Char) : collapse (collapse text) = collapse text := by
  rw [collapse, words_collapse, collapse]

theorem collapse_eq_nil_iff (text : List Char) : collapse text = [] ↔ words text = [] := by
  constructor
  · intro h
    cases hwords : words text with
    | nil => rfl
    | cons word others =>
        have hmem : word ∈ words text := by simp [hwords]
        have hword : word ≠ [] := ne_nil_of_mem_words hmem
        rw [collapse, hwords] at h
        cases others <;> simp [List.intercalate_cons_cons, hword] at h
  · intro h
    rw [collapse, h]
    rfl

/-- What collapsing makes of the text behind a character that is not white space. -/
def collapseBehind : List Char → List Char
  | [] => []
  | c :: rest =>
      if isBlank c then
        if collapse rest = [] then [] else ' ' :: collapse rest
      else collapse (c :: rest)

theorem collapse_cons_blank {c : Char} (h : isBlank c = true) (rest : List Char) :
    collapse (c :: rest) = collapse rest := by
  rw [collapse, words_cons_blank h, collapse]

theorem collapse_cons_inked {c : Char} (h : isBlank c = false) (rest : List Char) :
    collapse (c :: rest) = c :: collapseBehind rest := by
  rw [collapse, words.eq_def]
  simp only [h, Bool.false_eq_true, ↓reduceIte]
  cases rest with
  | nil => rfl
  | cons d rest =>
      by_cases hd : isBlank d = true
      · rw [collapseBehind, if_pos hd, words_cons_blank hd]
        cases hrest : words rest with
        | nil => rw [if_pos ((collapse_eq_nil_iff rest).mpr hrest)]; rfl
        | cons word others =>
            have hne : collapse rest ≠ [] := by
              rw [ne_eq, collapse_eq_nil_iff, hrest]
              exact List.cons_ne_nil _ _
            rw [if_neg hne, collapse, hrest]
            simp [hd, List.intercalate_cons_cons]
      · -- The word goes on, and joins the first one of the rest.
        rw [collapseBehind, if_neg hd, collapse]
        cases hrest : words (d :: rest) with
        | nil => rfl
        | cons word others =>
            simp only [hd]
            cases others <;> simp [List.intercalate_cons_cons]

/-- The same byte, or a newline that is turned into a space. -/
def Rejoined (b b' : UInt8) : Prop := b = b' ∨ (b = Byte.newline ∧ b' = Byte.space)

theorem inked_run {reading : Reading} (h : reading.Proper) {text text' : Bytes}
    (hsame : List.Forall₂ Rejoined text text') :
    inked (reading.run text) = inked (reading.run text') := by
  induction hsame generalizing reading with
  | nil => rfl
  | cons hb _ ih =>
      rcases hb with rfl | ⟨rfl, rfl⟩
      · rw [Reading.run, Reading.run, inked_append, inked_append, ih (h.next _)]
      · have hready : Reading.ready.Proper := trivial
        rw [Reading.run, Reading.run, Reading.next_ascii h (by decide),
          Reading.next_ascii h (by decide)]
        simp only [inked_append]
        rw [ih hready]
        rfl

theorem inked_decode {text text' : Bytes} (h : List.Forall₂ Rejoined text text') :
    inked (decode text) = inked (decode text') := by
  have hbetween : Reading.ready.Proper := trivial
  exact inked_run hbetween h

theorem inked_normalize (text : Bytes) :
    inked (Source.normalize text).toList = inked (decode (Comment.strip text)) := by
  rw [Source.normalize, String.toList_ofList, inked_collapse]

end HclToJson.Text
