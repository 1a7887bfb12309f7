import HclToJson.Json.Printer

namespace HclToJson.Json

/-- White space as it may stand between the tokens of JSON text. -/
def Blank (gap : List Char) : Prop := ∀ c ∈ gap, c = ' ' ∨ c = '\n' ∨ c = '\r' ∨ c = '\t'

/-- A style that lays the elements out with blanks alone. -/
structure Style.Blank (style : Style) : Prop where
  newline (level : Nat) : Json.Blank (style.newline level)
  gap : Json.Blank style.gap

theorem Style.blank_compact : Style.compact.Blank where
  newline _ := nofun
  gap := nofun

theorem Style.blank_pretty : Style.pretty.Blank where
  newline level c hc := by
    rcases List.mem_cons.mp hc with rfl | hc
    · exact .inr (.inl rfl)
    · exact .inl (List.eq_of_mem_replicate hc)
  gap c hc := .inl (List.mem_singleton.mp hc)

/-- The characters that stand behind a backslash, with those that they are written for. -/
def shortEscapes : List (Char × Char) :=
  [('"', '"'), ('\\', '\\'), ('n', '\n'), ('r', '\r'), ('t', '\t'), ('b', '\x08'), ('f', '\x0c')]

theorem escapeLower_cases (c : Char) :
    (∃ d, (d, c) ∈ shortEscapes ∧ Text.escapeLower c = ['\\', d]) ∨
    (c.toNat < 0x20 ∧ Text.escapeLower c =
      ['\\', 'u', '0', '0', (c.toNat / 16).digitChar, (c.toNat % 16).digitChar]) ∨
    (¬ c.toNat < 0x20 ∧ c ≠ '"' ∧ c ≠ '\\' ∧ Text.escapeLower c = [c]) := by
  unfold Text.escapeLower Text.escapeChar
  iterate 7
    split
    · subst c
      refine .inl ⟨_, ?_, rfl⟩
      decide
  split
  · rename_i hcontrol
    exact .inr (.inl ⟨of_decide_eq_true hcontrol, rfl⟩)
  · rename_i hquote hbackslash _ _ _ _ _ hcontrol
    exact .inr (.inr ⟨fun h => hcontrol (decide_eq_true h), hquote, hbackslash, rfl⟩)

theorem quoted_append (text : String) (rest : List Char) :
    quoted text ++ rest = '"' :: (text.toList.flatMap Text.escapeLower ++ '"' :: rest) := by
  rw [quoted, List.append_assoc]
  rfl

section Elements

variable {style : Style} {gap : List Char}

/-- The elements between brackets, each behind its layout. -/
def separated (gap : List Char) (elements : List (List Char)) : List Char :=
  [','].intercalate (elements.map (gap ++ ·))

theorem separated_singleton (element : List Char) : separated gap [element] = gap ++ element := by
  rw [separated, List.map_singleton, List.intercalate_singleton]

theorem separated_cons (element : List Char) {elements : List (List Char)} (h : elements ≠ []) :
    separated gap (element :: elements) =
      gap ++ (element ++ ',' :: separated gap elements) := by
  obtain ⟨next, elements, rfl⟩ := List.exists_cons_of_ne_nil h
  simp only [separated, List.map_cons, List.intercalate_cons_cons, List.append_assoc,
    List.cons_append, List.nil_append]

theorem exists_separated_cons (gap element : List Char) (elements : List (List Char)) :
    ∃ back, separated gap (element :: elements) = gap ++ (element ++ back) := by
  cases elements with
  | nil => exact ⟨[], by rw [separated_singleton, List.append_nil]⟩
  | cons next elements => exact ⟨_, separated_cons element (List.cons_ne_nil next elements)⟩

theorem bracket_eq (opening closing : Char) (level : Nat) {elements : List (List Char)}
    (h : elements ≠ []) :
    bracket style level opening closing elements =
      opening :: (separated (style.newline (level + 1)) elements ++
        (style.newline level ++ [closing])) := by
  rw [bracket, if_neg (by simpa using h), List.cons_append, List.cons_append, List.append_assoc]
  rfl

theorem itemTexts_ne_nil {items : List Value} (h : items ≠ []) (level : Nat) :
    itemTexts style level items ≠ [] := by
  obtain ⟨item, items, rfl⟩ := List.exists_cons_of_ne_nil h
  exact List.cons_ne_nil _ _

theorem entryTexts_ne_nil {entries : List (String × Value)} (h : entries ≠ []) (level : Nat) :
    entryTexts style level entries ≠ [] := by
  obtain ⟨⟨key, value⟩, entries, rfl⟩ := List.exists_cons_of_ne_nil h
  exact List.cons_ne_nil _ _

end Elements

end HclToJson.Json
