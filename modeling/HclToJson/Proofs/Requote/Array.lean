import HclToJson.Proofs.Requote.Object

namespace HclToJson.Grammar

open Comment Text HclToJson.Parser

/-- What may stand behind the last item of a list, if there is one. -/
def Tail (p : Parser Bool) (items : List (Located Expr)) (c : Cursor) (mark : Bool) (d : Cursor) :
    Prop :=
  (items = [] ∧ mark = false ∧ d = c) ∨ (items ≠ [] ∧ p c = .ok (mark, d))

section

variable {behind text text' : Bytes} {bound braces : Nat} {outer : List Frame} {c c' d : Cursor}
  {nested nested' : Nested} {b : UInt8}

theorem flag_cases {mark : Bool} (h : flag b c = .ok (mark, d)) :
    (mark = true ∧ byte b c = .ok (⟨⟩, d)) ∨ (mark = false ∧ d = c ∧ byte b c = .error .miss) := by
  obtain ⟨result, c₁, hresult, hrun⟩ := bind_eq_ok.mp h
  cases hrun
  rcases optional_eq_ok.mp hresult with ⟨⟨⟩, rfl, hbyte⟩ | ⟨rfl, rfl, hmiss⟩
  · exact Or.inl ⟨rfl, hbyte⟩
  · exact Or.inr ⟨rfl, rfl, hmiss⟩

theorem flag_of_byte (h : byte b c = .ok (⟨⟩, d)) : flag b c = .ok (true, d) :=
  bind_ok (optional_ok h) rfl

theorem flag_of_miss (h : byte b c = .error .miss) : flag b c = .ok (false, c) :=
  bind_ok (optional_miss h) rfl

/-! ### Arrays -/

/-- Reads what closes an array. -/
def closeArray (start : Cursor) (items : List (Located Expr)) : Parser Expr := do
  blankLines
  Parser.must (Parser.byte Byte.closeBracket)
  return .array (← layoutFrom start (spans items)) (items.map (·.value))

theorem closeArray_eq_ok {start : Cursor} {items : List (Located Expr)} {e : Expr}
    (h : closeArray start items c = .ok (e, d)) :
    ∃ c₁ layout, blankLines c = .ok (⟨⟩, c₁) ∧ byte Byte.closeBracket c₁ = .ok (⟨⟩, d) ∧
      e = .array layout (items.map (·.value)) := by
  obtain ⟨_, c₁, hblank, h⟩ := bind_eq_ok.mp h
  obtain ⟨_, c₂, hclose, h⟩ := bind_eq_ok.mp h
  cases h
  exact ⟨c₁, _, hblank, must_eq_ok.mp hclose, rfl⟩

theorem closeArray_ok (start : Cursor) (items : List (Located Expr)) {c₁ : Cursor}
    (hblank : blankLines c = .ok (⟨⟩, c₁)) (hclose : byte Byte.closeBracket c₁ = .ok (⟨⟩, d)) :
    ∃ e, closeArray start items c = .ok (e, d) ∧ e.form = .built :=
  ⟨.array _ (items.map (·.value)), bind_ok hblank (bind_ok (must_eq_ok.mpr hclose) rfl), rfl⟩

theorem array_eq_ok {e : Expr} (h : array nested c = .ok (e, d)) :
    ∃ c₁, byte Byte.openBracket c = .ok (⟨⟩, c₁) ∧
      ((opensComprehension c₁ = .ok (true, c₁) ∧ comprehension nested c false c₁ = .ok (e, d)) ∨
        (opensComprehension c₁ = .ok (false, c₁) ∧ ∃ items c₂ c₃ mark,
          commaSeparated nested [Byte.closeBracket] c₁ = .ok (items, c₂) ∧
          Tail (flag Byte.comma) items c₂ mark c₃ ∧ closeArray c items c₃ = .ok (e, d))) := by
  obtain ⟨_, _, hget, h⟩ := bind_eq_ok.mp h
  cases hget
  obtain ⟨_, c₁, hopen, h⟩ := bind_eq_ok.mp h
  obtain ⟨loops, c₀, hloops, h⟩ := bind_eq_ok.mp h
  obtain rfl := opensComprehension_stays hloops
  refine ⟨c₀, hopen, ?_⟩
  cases loops with
  | true => exact Or.inl ⟨hloops, h⟩
  | false =>
      obtain ⟨items, c₂, hitems, h⟩ := bind_eq_ok.mp h
      cases items with
      | nil => exact Or.inr ⟨hloops, [], c₂, c₂, false, hitems, Or.inl ⟨rfl, rfl, rfl⟩, h⟩
      | cons first others =>
          obtain ⟨_, c₃, hcomma, h⟩ := bind_eq_ok.mp h
          rw [discard_eq] at hcomma
          split at hcomma
          · rename_i mark _ hflag
            cases hcomma
            exact Or.inr ⟨hloops, _, c₂, _, mark, hitems, Or.inr ⟨List.cons_ne_nil _ _, hflag⟩, h⟩
          · cases hcomma

theorem array_comprehension {e : Expr} {c₁ : Cursor}
    (hopen : byte Byte.openBracket c = .ok (⟨⟩, c₁))
    (hloops : opensComprehension c₁ = .ok (true, c₁))
    (hrun : comprehension nested c false c₁ = .ok (e, d)) : array nested c = .ok (e, d) :=
  bind_ok (get_eq c) (bind_ok hopen (bind_ok hloops hrun))

theorem array_ok {items : List (Located Expr)} {mark : Bool} {e : Expr} {c₁ c₂ c₃ : Cursor}
    (hopen : byte Byte.openBracket c = .ok (⟨⟩, c₁))
    (hloops : opensComprehension c₁ = .ok (false, c₁))
    (hitems : commaSeparated nested [Byte.closeBracket] c₁ = .ok (items, c₂))
    (htail : Tail (flag Byte.comma) items c₂ mark c₃)
    (hclose : closeArray c items c₃ = .ok (e, d)) :
    array nested c = .ok (e, d) := by
  refine bind_ok (get_eq c) (bind_ok hopen (bind_ok hloops (bind_ok hitems ?_)))
  rcases htail with ⟨rfl, -, rfl⟩ | ⟨hne, hflag⟩
  · exact hclose
  · obtain ⟨first, others, rfl⟩ := List.exists_cons_of_ne_nil hne
    have hdiscard : (discard (flag Byte.comma) : Parser Unit) c₂ = .ok (⟨⟩, c₃) := by
      rw [discard_eq, hflag]
    exact bind_ok hdiscard hclose

/-- In brackets the next token is within the text. -/
theorem inside_list (hn : nested.Advances) {ends : List UInt8} {items : List (Located Expr)}
    (hitems : commaSeparated nested ends c = .ok (items, d)) (hd : d.rest = text ++ behind)
    (hend : ListEnd behind ends items d) :
    ∃ c₁ text₁, blankLines c = .ok (⟨⟩, c₁) ∧ c₁.rest = text₁ ++ behind := by
  rcases commaSeparated_eq_ok hitems with ⟨rfl, rfl⟩ | ⟨first, c₁, others, rfl, hfirst, hothers⟩
  · obtain ⟨b, -, -, c₁, rest, hblank, hc₁⟩ := hend.resolve_right fun h => h.1 rfl
    exact ⟨c₁, b :: rest, hblank, hc₁⟩
  · obtain ⟨text₁, hc₁⟩ := (hothers.reaches (advances_commaItem hn ends)).inside hd
    obtain ⟨c₂, c₃, e, before, after, hfront, hp, hback, -⟩ := within_eq_ok (listItem_eq_ok hfirst)
    obtain ⟨text₃, hc₃⟩ := (advances_blankLines c₃ hback).inside hc₁
    obtain ⟨text₂, hc₂⟩ := (hn.expr false c₂ hp).inside hc₃
    exact ⟨c₂, text₂, hfront, hc₂⟩

theorem listEnd_of_flag {close : UInt8} (hclose : close ≠ Byte.comma) {items : List (Located Expr)}
    {mark : Bool} {c₁ : Cursor} (htail : Tail (flag Byte.comma) items c mark c₁)
    (hahead : Ahead behind close c₁) : ListEnd behind [close] items c := by
  have hclosing : Closing behind [close] c₁ := ⟨close, List.mem_singleton.mpr rfl, hclose, hahead⟩
  rcases htail with ⟨rfl, -, rfl⟩ | ⟨hne, hflag⟩
  · exact Or.inl hclosing
  · rcases flag_cases hflag with ⟨-, hcomma⟩ | ⟨-, rfl, -⟩
    · exact Or.inr ⟨hne, c₁, hcomma, hclosing⟩
    · exact Or.inl hclosing

/-- At the end of a list an expression ends. -/
theorem ListEnd.ended {ends : List UInt8} {items : List (Located Expr)}
    (hend : ListEnd behind ends items c) (hgoing : ∀ b ∈ ends, b ∉ goingOn) (e : Expr)
    (hc : c.rest = text ++ behind) (h : Fit (.within (.code braces) outer) text) :
    Ended e (squeeze (uncommented (.within (.code braces) outer) text)) := by
  rcases hend with ⟨b, hb, -, hahead⟩ | ⟨-, c₁, hcomma, b, -, -, d, rest, hblank, hd⟩
  · exact hahead.ended (hgoing b hb) e hc h
  · have hrest : d.rest = b :: rest ++ behind := hd
    obtain ⟨text₁, hc₁⟩ := (advances_blankLines c₁ hblank).inside hrest
    exact (ahead_of_byte (by decide) hcomma hc₁).ended (by decide) e hc h

theorem retrace_flagTail {items items' : List (Located Expr)} {mark : Bool}
    (h : Tracks behind (.within (.code braces) outer) text c c')
    (hsame : items'.isEmpty = items.isEmpty) (hrun : Tail (flag Byte.comma) items c mark d)
    {close : UInt8} (hclose : close ≠ Byte.comma) (hahead : Ahead behind close d)
    (hd : d.rest = text' ++ behind) :
    ∃ d', Tail (flag Byte.comma) items' c' mark d' ∧
      Tracks behind (.within (.code braces) outer) text' d d' ∧
        d'.rest.length ≤ c'.rest.length := by
  have hnil : items' = [] ↔ items = [] := by
    rw [← List.isEmpty_iff, ← List.isEmpty_iff, hsame]
  rcases hrun with ⟨hitems, rfl, rfl⟩ | ⟨hne, hflag⟩
  · obtain rfl := List.append_cancel_right (h.rest.symm.trans hd)
    exact ⟨c', Or.inl ⟨hnil.mpr hitems, rfl, rfl⟩, h, Nat.le_refl _⟩
  · rcases flag_cases hflag with ⟨rfl, hcomma⟩ | ⟨rfl, rfl, -⟩
    · obtain ⟨-, d', hcomma', htracks, hlength, -⟩ := retrace_byte h (by decide) hcomma hd
      exact ⟨d', Or.inr ⟨fun h => hne (hnil.mp h), flag_of_byte hcomma'⟩, htracks,
        Nat.le_of_lt hlength⟩
    · obtain rfl := List.append_cancel_right (h.rest.symm.trans hd)
      have hmiss : byte Byte.comma c' = .error .miss :=
        hahead.exactly_miss h rfl ⟨fun heq => hclose heq.symm, by decide⟩
      exact ⟨c', Or.inr ⟨fun h => hne (hnil.mp h), flag_of_miss hmiss⟩, h, Nat.le_refl _⟩

/-- An array is read from both texts. -/
theorem retrace_array (hn : NestedRetraces behind bound nested nested') (hends : Ends behind)
    (h : Tracks behind (.within (.code braces) outer) text c c') (hbound : c'.rest.length ≤ bound)
    {e : Expr} (hrun : array nested c = .ok (e, d)) (hd : d.rest = text' ++ behind)
    (hjoin : e.joinable = true) :
    ∃ e' d', array nested' c' = .ok (e', d') ∧
      Tracks behind (.within (.code braces) outer) text' d d' ∧
      d'.rest.length < c'.rest.length ∧ e'.form = e.form := by
  obtain ⟨c₁, hopen, ⟨hloops, hcomprehension⟩ |
    ⟨hloops, items, c₂, c₃, mark, hitems, htail, hclosing⟩⟩ := array_eq_ok hrun
  · obtain ⟨text₁, hc₁⟩ := (advances_comprehension hn.advances c false c₁ hcomprehension).inside hd
    obtain ⟨c₁', hopen', h₁, hlength₁, hfor⟩ := retrace_opener false h hopen hc₁
    obtain ⟨e', d', hloops', hcomprehension', htracks, hlength, hform', hform⟩ :=
      retrace_comprehension hn c' h₁ hfor (by omega) hloops hcomprehension hd hjoin
    exact ⟨e', d', array_comprehension hopen' hloops' hcomprehension', htracks, by omega,
      hform'.trans hform.symm⟩
  · obtain ⟨c₄, layout, hblank, hclose, rfl⟩ := closeArray_eq_ok hclosing
    obtain ⟨text₄, hc₄⟩ := (advances_byte _ c₄ hclose).inside hd
    obtain ⟨text₃, hc₃⟩ := (advances_blankLines c₃ hblank).inside hc₄
    have hahead : Ahead behind Byte.closeBracket c₃ :=
      ⟨c₄, text', hblank, by rw [byte_eq_ok hclose, hd, List.cons_append]⟩
    have hend : ListEnd behind [Byte.closeBracket] items c₂ :=
      listEnd_of_flag (by decide) htail hahead
    obtain ⟨text₂, hc₂⟩ : ∃ text₂, c₂.rest = text₂ ++ behind := by
      rcases htail with ⟨-, -, rfl⟩ | ⟨-, hflag⟩
      · exact ⟨text₃, hc₃⟩
      · exact (advances_flag Byte.comma c₂ hflag).inside hc₃
    obtain ⟨text₁, hc₁⟩ := (advances_commaSeparated hn.advances _ c₁ hitems).inside hc₂
    obtain ⟨c₁', hopen', h₁, hlength₁, hfor⟩ := retrace_opener false h hopen hc₁
    obtain ⟨c₀, text₀, hblank₀, hc₀⟩ := inside_list hn.advances hitems hc₂ hend
    have hforAhead : forAhead c₀.rest = false := by
      rw [opensComprehension_eq hblank₀] at hloops
      exact congrArg Prod.fst (Except.ok.inj hloops)
    have hloops' : opensComprehension c₁' = .ok (false, c₁') :=
      retrace_opensComprehension h₁ hfor hblank₀ hc₀ hforAhead fun hfalse => by cases hfalse
    obtain ⟨items', c₂', hitems', h₂, -, hlength₂, hsame⟩ := retrace_commaSeparated hn hends
      (forall_mem_of_all rfl) h₁ (by omega) hitems hc₂ hend
      (fun v _ hfit => hend.ended (forall_mem_of_all rfl) v.value hc₂ hfit)
      (by simpa [Expr.joinable] using hjoin)
    obtain ⟨c₃', htail', h₃, hlength₃⟩ :=
      retrace_flagTail h₂ hsame htail (by decide) hahead hc₃
    obtain ⟨c₄', hblank', h₄, -, -, hlength₄, -⟩ := retrace_blank h₃ hblank hc₄ true
    obtain ⟨d', hclose', htracks, hlength⟩ := retrace_closer false h₄ hclose hd
    obtain ⟨e', hclosing', hform⟩ := closeArray_ok c' items' hblank' hclose'
    exact ⟨e', d', array_ok hopen' hloops' hitems' htail' hclosing', htracks, by omega, hform⟩

end

end HclToJson.Grammar
