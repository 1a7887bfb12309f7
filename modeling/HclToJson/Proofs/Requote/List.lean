import HclToJson.Proofs.Requote.Elements

namespace HclToJson.Grammar

open Comment Text HclToJson.Parser

/-- The byte behind white space and comments, within a text. -/
def Ahead (behind : Bytes) (b : UInt8) (c : Cursor) : Prop :=
  ∃ d rest, blankLines c = .ok (⟨⟩, d) ∧ d.rest = b :: rest ++ behind

/-- What a list ends in stands ahead: one of its ends, other than a comma. -/
def Closing (behind : Bytes) (ends : List UInt8) (c : Cursor) : Prop :=
  ∃ b ∈ ends, b ≠ Byte.comma ∧ Ahead behind b c

/-- The end of a list, or a comma in front of it. -/
def ListEnd (behind : Bytes) (ends : List UInt8) (items : List (Located Expr))
    (c : Cursor) : Prop :=
  Closing behind ends c ∨
    (items ≠ [] ∧ ∃ d, byte Byte.comma c = .ok (⟨⟩, d) ∧ Closing behind ends d)

section

variable {behind text text' : Bytes} {bound braces : Nat} {outer : List Frame} {c c' d : Cursor}
  {nested nested' : Nested} {ends : List UInt8} {b : UInt8}

theorem nextToken_eq (h : blankLines c = .ok (⟨⟩, d)) : nextToken c = .ok (d.rest.head?, c) := by
  simp only [nextToken, bind_eq, get_eq, h, ahead_eq, set_eq, pure_eq]

theorem blankLines_settled (h : Settled c.rest) : blankLines c = .ok (⟨⟩, c) := by
  rw [blankLines, separator_eq, blankLength_settled h]
  rfl

theorem ahead_of_head {rest : Bytes} (hb : Byte.isBlank b = false ∧ b ≠ Byte.hash ∧ b ≠ Byte.slash)
    (hc : c.rest = b :: rest ++ behind) : Ahead behind b c :=
  ⟨c, rest, blankLines_settled (by rw [hc]; exact settled_of_not_mem hb _), hc⟩

theorem ahead_of_byte {value : Unit}
    (hb : Byte.isBlank b = false ∧ b ≠ Byte.hash ∧ b ≠ Byte.slash)
    (hrun : byte b c = .ok (value, d)) (hd : d.rest = text' ++ behind) : Ahead behind b c :=
  ahead_of_head hb (by rw [byte_eq_ok hrun, hd, List.cons_append])

theorem Ahead.head? (hahead : Ahead behind b c) (h : Fit (.within (.code braces) outer) text)
    (hc : c.rest = text ++ behind) :
    (squeeze (uncommented (.within (.code braces) outer) text)).head? = some b := by
  obtain ⟨d, rest, hblank, hd⟩ := hahead
  obtain ⟨hfit, hsame, hsettled⟩ := retrace_separator h hc hblank hd
  rw [hsame, head?_squeeze hfit (hsettled rfl)]
  rfl

/-- An expression ends in front of a byte that no operator starts with. -/
theorem Ahead.ended (hahead : Ahead behind b c) (hb : b ∉ goingOn) (e : Expr)
    (hc : c.rest = text ++ behind) (h : Fit (.within (.code braces) outer) text) :
    Ended e (squeeze (uncommented (.within (.code braces) outer) text)) := by
  refine (noOperator_of_head? fun x hx => ?_).ended e
  rw [hahead.head? h hc] at hx
  exact Option.some.inj hx ▸ hb

/-- Both readers have the same byte ahead. -/
theorem Ahead.retrace (hahead : Ahead behind b c)
    (h : Tracks behind (.within (.code braces) outer) text c c') :
    ∃ d', blankLines c' = .ok (⟨⟩, d') ∧ d'.rest.head? = some b := by
  obtain ⟨d', hblank', hd', -⟩ := separator_tidy h true
  exact ⟨d', hblank', by rw [hd', hahead.head? h.fit h.rest]⟩

/-- Where another byte is ahead, a token is missing. -/
theorem Ahead.exactly_miss {expected : Bytes} (hahead : Ahead behind b c)
    (h : Tracks behind (.within (.code braces) outer) text c c') {e : UInt8}
    (he : expected.head? = some e) (hne : e ≠ b ∧ e ≠ Byte.space) :
    exactly expected c' = .error .miss := by
  obtain ⟨others, rfl⟩ := List.head?_eq_some_iff.mp he
  refine Parser.exactly_miss ?_
  cases hrest : c'.rest with
  | nil => rfl
  | cons x rest =>
      have hx : e ≠ x := by
        rcases h.head?_tidy (hahead.head? h.fit h.rest) with hspace | hsame
        · rw [hrest] at hspace
          exact fun heq => hne.2 (heq.trans (Option.some.inj hspace))
        · rw [hrest] at hsame
          exact fun heq => hne.1 (heq.trans (Option.some.inj hsame))
      simp [List.isPrefixOf, hx]

theorem Closing.byte_miss (hclose : Closing behind ends c)
    (h : Tracks behind (.within (.code braces) outer) text c c') :
    byte Byte.comma c' = .error .miss := by
  obtain ⟨b, -, hne, hahead⟩ := hclose
  exact hahead.exactly_miss h rfl ⟨fun heq => hne heq.symm, by decide⟩

/-! ### Items between commas -/

theorem listItem_eq_ok {v : Located Expr} (h : listItem nested ends c = .ok (v, d)) :
    spaced nested c = .ok (v, d) := by
  obtain ⟨next, c₁, hnext, hrun⟩ := bind_eq_ok.mp h
  obtain ⟨_, c₂, hrequire, hitem⟩ := bind_eq_ok.mp hrun
  rw [require_eq] at hrequire
  split at hrequire
  · cases hrequire
    rw [nextToken_eq (separator_eq true c)] at hnext
    cases hnext
    exact hitem
  · cases hrequire

theorem listItem_ok {v : Located Expr} {c₁ : Cursor} (hblank : blankLines c = .ok (⟨⟩, c₁))
    (hb : c₁.rest.head? = some b) (hnot : b ∉ ends) (hspaced : spaced nested c = .ok (v, d)) :
    listItem nested ends c = .ok (v, d) := by
  refine bind_ok (nextToken_eq hblank) ?_
  rw [hb, bind_eq, require_eq, if_pos (by simp [hnot])]
  exact hspaced

theorem listItem_miss (hclose : Closing behind ends c)
    (h : Tracks behind (.within (.code braces) outer) text c c') :
    listItem nested' ends c' = .error .miss := by
  obtain ⟨b, hb, -, hahead⟩ := hclose
  obtain ⟨d', hblank', hhead⟩ := hahead.retrace h
  rw [listItem, bind_ok_eq (nextToken_eq hblank')]
  refine bind_error ?_
  rw [require_eq, hhead, if_neg]
  simp [hb]

/-- An item of a list, behind a comma. -/
def commaItem (nested : Nested) (ends : List UInt8) : Parser (Located Expr) := do
  Parser.byte Byte.comma
  listItem nested ends

theorem advances_commaItem (h : nested.Advances) (ends : List UInt8) :
    Advances (commaItem nested ends) :=
  (advances_byte _).bind fun _ => advances_listItem h ends

theorem commaSeparated_eq_ok {items : List (Located Expr)}
    (h : commaSeparated nested ends c = .ok (items, d)) :
    (items = [] ∧ d = c) ∨
      ∃ first c₁ others, items = first :: others ∧ listItem nested ends c = .ok (first, c₁) ∧
        Chain (commaItem nested ends) c₁ others d := by
  obtain ⟨result, c₁, hfirst, hrun⟩ := bind_eq_ok.mp h
  rcases optional_eq_ok.mp hfirst with ⟨first, rfl, hitem⟩ | ⟨rfl, rfl, -⟩
  · obtain ⟨others, c₂, hothers, hrun⟩ := bind_eq_ok.mp hrun
    cases hrun
    exact Or.inr ⟨first, c₁, others, rfl, hitem, chain_of_many hothers⟩
  · cases hrun
    exact Or.inl ⟨rfl, rfl⟩

theorem commaSeparated_nil (h : listItem nested ends c = .error .miss) :
    commaSeparated nested ends c = .ok ([], c) :=
  bind_ok (optional_miss h) rfl

theorem commaSeparated_cons {first : Located Expr} {others : List (Located Expr)} {c₁ : Cursor}
    (hfirst : listItem nested ends c = .ok (first, c₁))
    (hothers : Repeats (commaItem nested ends) c₁ others d) :
    commaSeparated nested ends c = .ok (first :: others, d) :=
  bind_ok (optional_ok hfirst) (bind_ok (p := Parser.many (commaItem nested ends)) hothers.many rfl)

/-- An expression between white space is read from both texts. -/
theorem NestedRetraces.spacedOperand (hn : NestedRetraces behind bound nested nested')
    (h : Tracks behind (.within (.code braces) outer) text c c') (hbound : c'.rest.length < bound)
    {v : Located Expr} (hrun : spaced nested c = .ok (v, d)) (hd : d.rest = text' ++ behind)
    (hjoin : v.value.joinable = true)
    (hend : Fit (.within (.code braces) outer) text' →
      Ended v.value (squeeze (uncommented (.within (.code braces) outer) text'))) :
    ∃ v' d', spaced nested' c' = .ok (v', d') ∧
      Tracks behind (.within (.code braces) outer) text' d d' ∧ Settled text' ∧
      d'.rest.length < c'.rest.length := by
  obtain ⟨v', d', hspaced', htracks, -, hlength, -⟩ := hn.operand h hbound hrun hd hjoin hend
  obtain ⟨c₁, c₂, e, before, after, -, -, hback, -⟩ := within_eq_ok hrun
  exact ⟨v', d', hspaced', htracks, settled_behind htracks.fit hback hd, hlength⟩

/-- An item of a list is read from both texts. -/
theorem retrace_listItem (hn : NestedRetraces behind bound nested nested') (hends : Ends behind)
    (hlist : ∀ b ∈ ends, ¬ OperandByte b)
    (h : Tracks behind (.within (.code braces) outer) text c c') (hbound : c'.rest.length < bound)
    {v : Located Expr} (hrun : listItem nested ends c = .ok (v, d)) (hd : d.rest = text' ++ behind)
    (hjoin : v.value.joinable = true)
    (hend : Fit (.within (.code braces) outer) text' →
      Ended v.value (squeeze (uncommented (.within (.code braces) outer) text'))) :
    ∃ v' d', listItem nested' ends c' = .ok (v', d') ∧
      Tracks behind (.within (.code braces) outer) text' d d' ∧ Settled text' ∧
      d'.rest.length < c'.rest.length := by
  have hspaced := listItem_eq_ok hrun
  obtain ⟨b, hb, hoperand⟩ := hn.head? hends h.fit h.rest advances_blankLines hspaced hd
  obtain ⟨v', d', hspaced', htracks, hsettled, hlength⟩ :=
    hn.spacedOperand h hbound hspaced hd hjoin hend
  obtain ⟨c₁', hblank', hc₁', -⟩ := separator_tidy h true
  exact ⟨v', d', listItem_ok hblank' (by rw [hc₁']; exact hb) (fun hmem => hlist b hmem hoperand)
    hspaced', htracks, hsettled, hlength⟩

/-- The items behind the first one are read from both texts, and what is behind the last one is no
item for either. -/
theorem retrace_commaItems (hn : NestedRetraces behind bound nested nested') (hends : Ends behind)
    (hlist : ∀ b ∈ ends, ¬ OperandByte b) {first : Located Expr} {others : List (Located Expr)}
    (hrun : Chain (commaItem nested ends) c others d)
    (hd : d.rest = text' ++ behind) (hend : ListEnd behind ends (first :: others) d)
    (hlast : ∀ v ∈ (first :: others).getLast?, Fit (.within (.code braces) outer) text' →
      Ended v.value (squeeze (uncommented (.within (.code braces) outer) text')))
    (hjoin : Expr.joinableAll (others.map (·.value)) = true) :
    (∀ text, c.rest = text ++ behind → Fit (.within (.code braces) outer) text →
      Ended first.value (squeeze (uncommented (.within (.code braces) outer) text))) ∧
    ∀ text c', Tracks behind (.within (.code braces) outer) text c c' → Settled text →
      c'.rest.length < bound →
      ∃ others' d', Repeats (commaItem nested' ends) c' others' d' ∧
        Tracks behind (.within (.code braces) outer) text' d d' ∧ Settled text' ∧
        d'.rest.length ≤ c'.rest.length := by
  induction hrun generalizing first with
  | nil c =>
      refine ⟨fun text hc hfit => ?_, fun text c' h hsettled _ => ?_⟩
      · obtain rfl := List.append_cancel_right (hc.symm.trans hd)
        exact hlast first rfl hfit
      · obtain rfl := List.append_cancel_right (h.rest.symm.trans hd)
        refine ⟨[], c', .stop ?_, h, hsettled, Nat.le_refl _⟩
        rcases hend with hclose | ⟨-, d, hcomma, hclose⟩
        · exact bind_error (hclose.byte_miss h)
        · obtain ⟨b, -, -, c₂, rest, hblank, hc₂⟩ := id hclose
          have hrest : c₂.rest = b :: rest ++ behind := hc₂
          obtain ⟨text₁, hd₁⟩ := (advances_blankLines d hblank).inside hrest
          obtain ⟨-, d', hcomma', h₁, -⟩ := retrace_byte h (by decide) hcomma hd₁
          exact (bind_ok_eq hcomma').trans (listItem_miss hclose h₁)
  | @cons c c₁ d second others hsecond hothers ih =>
      obtain ⟨_, c₂, hcomma, hitem⟩ := bind_eq_ok.mp hsecond
      obtain ⟨text₁, hc₁⟩ := (hothers.reaches (advances_commaItem hn.advances ends)).inside hd
      obtain ⟨text₂, hc₂⟩ := (advances_listItem hn.advances ends c₂ hitem).inside hc₁
      simp only [List.map_cons, Expr.joinableAll, Bool.and_eq_true] at hjoin
      have hend' : ListEnd behind ends (second :: others) d :=
        hend.imp id fun h => ⟨List.cons_ne_nil _ _, h.2⟩
      obtain ⟨hfirst, hrest⟩ := ih hd hend' (by simpa using hlast) hjoin.2
      refine ⟨fun text hc hfit => ?_, fun text c' h hsettled hbound => ?_⟩
      · exact (ahead_of_byte (by decide) hcomma hc₂).ended (by decide) first.value hc hfit
      · obtain ⟨rfl, c₂', hcomma', h₂, hlength₂, -⟩ := retrace_byte h (by decide) hcomma hc₂
        obtain ⟨second', c₁', hitem', h₁, hsettled₁, hlength₁⟩ := retrace_listItem hn hends hlist h₂
          (by omega) hitem hc₁ hjoin.1 (hfirst text₁ hc₁)
        obtain ⟨others', d', hothers', htracks, hsettled', hlength⟩ :=
          hrest text₁ c₁' h₁ hsettled₁ (by omega)
        exact ⟨second' :: others', d', .next (bind_ok hcomma' hitem') (by omega) hothers', htracks,
          hsettled', by omega⟩

/-- The items of a list are read from both texts. -/
theorem retrace_commaSeparated (hn : NestedRetraces behind bound nested nested')
    (hends : Ends behind) (hlist : ∀ b ∈ ends, ¬ OperandByte b)
    (h : Tracks behind (.within (.code braces) outer) text c c') (hbound : c'.rest.length < bound)
    {items : List (Located Expr)} (hrun : commaSeparated nested ends c = .ok (items, d))
    (hd : d.rest = text' ++ behind) (hend : ListEnd behind ends items d)
    (hlast : ∀ v ∈ items.getLast?, Fit (.within (.code braces) outer) text' →
      Ended v.value (squeeze (uncommented (.within (.code braces) outer) text')))
    (hjoin : Expr.joinableAll (items.map (·.value)) = true) :
    ∃ items' d', commaSeparated nested' ends c' = .ok (items', d') ∧
      Tracks behind (.within (.code braces) outer) text' d d' ∧ (items ≠ [] → Settled text') ∧
      d'.rest.length ≤ c'.rest.length ∧ items'.isEmpty = items.isEmpty := by
  rcases commaSeparated_eq_ok hrun with ⟨rfl, rfl⟩ | ⟨first, c₁, others, rfl, hfirst, hothers⟩
  · obtain rfl := List.append_cancel_right (h.rest.symm.trans hd)
    have hclose : Closing behind ends d := hend.resolve_right fun hcomma => hcomma.1 rfl
    exact ⟨[], c', commaSeparated_nil (listItem_miss hclose h), h, fun hne => absurd rfl hne,
      Nat.le_refl _, rfl⟩
  · obtain ⟨text₁, hc₁⟩ := (hothers.reaches (advances_commaItem hn.advances ends)).inside hd
    simp only [List.map_cons, Expr.joinableAll, Bool.and_eq_true] at hjoin
    obtain ⟨hended, hrest⟩ := retrace_commaItems hn hends hlist hothers hd hend hlast hjoin.2
    obtain ⟨first', c₁', hfirst', h₁, hsettled₁, hlength₁⟩ :=
      retrace_listItem hn hends hlist h hbound hfirst hc₁ hjoin.1 (hended text₁ hc₁)
    obtain ⟨others', d', hothers', htracks, hsettled, hlength⟩ :=
      hrest text₁ c₁' h₁ hsettled₁ (by omega)
    exact ⟨first' :: others', d', commaSeparated_cons hfirst' hothers', htracks, fun _ => hsettled,
      by omega, rfl⟩

end

end HclToJson.Grammar
