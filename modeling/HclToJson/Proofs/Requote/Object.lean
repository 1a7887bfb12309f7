import HclToJson.Proofs.Requote.Comprehension

namespace HclToJson

namespace Item

theorem insert_cases (items : List Item) (item : Item) :
    insert items item = items ++ [item] ∨ (insert items item).length = items.length := by
  induction items with
  | nil => exact Or.inl rfl
  | cons first rest ih =>
      rw [insert]
      split
      · exact Or.inr rfl
      · rcases ih with h | h
        · exact Or.inl (by rw [h, List.cons_append])
        · exact Or.inr (by rw [List.length_cons, List.length_cons, h])

theorem foldl_insert_cases (items front : List Item) :
    items.foldl insert front = front ++ items ∨
      (items.foldl insert front).length < front.length + items.length := by
  induction items generalizing front with
  | nil => exact Or.inl (List.append_nil front).symm
  | cons item rest ih =>
      rw [List.foldl_cons, List.length_cons]
      rcases insert_cases front item with h | h
      · rcases ih (insert front item) with h' | h'
        · exact Or.inl (by rw [h', h, List.append_assoc, List.singleton_append])
        · rw [h, List.length_append, List.length_singleton] at h'
          exact Or.inr (by rw [h]; omega)
      · refine Or.inr ?_
        rcases ih (insert front item) with h' | h'
        · rw [h', List.length_append]
          omega
        · omega

/-- Items none of which replaces another are all kept. -/
theorem lastOfEach_eq_self {items : List Item} (h : items.length ≤ (lastOfEach items).length) :
    lastOfEach items = items := by
  rcases foldl_insert_cases items [] with h' | h'
  · exact h'
  · rw [List.length_nil, Nat.zero_add] at h'
    exact absurd h (Nat.not_le.mpr h')

end Item

theorem Cursor.Reaches.drop {c d : Cursor} (h : c.Reaches d) :
    c.rest.drop (d.pos - c.pos) = d.rest ∧ c.pos ≤ d.pos := by
  obtain ⟨read, hrest, hpos⟩ := h
  rw [hrest, hpos, Nat.add_sub_cancel_left, List.drop_left]
  exact ⟨rfl, Nat.le_add_right _ _⟩

namespace Grammar

open Comment Text HclToJson.Parser

/-! ### Line ends behind items -/

/-- A separator goes on behind a blank as it would there. -/
theorem separator_step {newlines : Bool} {c : Cursor} {n : Nat}
    (hpiece : blankPiece newlines c.rest = n) (hpos : n ≠ 0) :
    separator newlines c = separator newlines ⟨c.pos + n, c.rest.drop n⟩ := by
  obtain ⟨pos, text⟩ := c
  cases text with
  | nil => exact absurd hpiece.symm hpos
  | cons b rest =>
      simp only at hpiece
      have hfuel : blankLength newlines rest ((b :: rest).drop n) =
          blankLength newlines ((b :: rest).drop n) ((b :: rest).drop n) :=
        blankLength_fuel (by rw [List.length_drop, List.length_cons]; omega) (Nat.le_refl _)
      simp only [separator_eq, blankLength_cons, hpiece, if_neg hpos, hfuel, Nat.add_assoc,
        List.drop_drop]

section

variable {behind text text' : Bytes} {bound braces : Nat} {outer : List Frame} {c c' d : Cursor}
  {nested nested' : Nested} {b : UInt8}

theorem blankLines_newline {value : Unit} (h : newline c = .ok (value, d)) :
    blankLines c = blankLines d := by
  obtain ⟨_, _, hahead, hrun⟩ := bind_eq_ok.mp h
  cases hahead
  obtain ⟨_, _, hrequire, hrun⟩ := bind_eq_ok.mp hrun
  rw [require_eq] at hrequire
  split at hrequire
  · rename_i hpos
    cases hrequire
    cases hrun
    obtain ⟨pos, text⟩ := c
    replace hpos := of_decide_eq_true hpos
    simp only [newlineLength, blankLines] at hpos ⊢
    split at hpos
    · exact separator_step rfl (by decide)
    · exact (separator_step (n := 1) rfl (by decide)).trans
        (separator_step (n := 1) rfl (by decide))
    · exact absurd hpos (Nat.lt_irrefl 0)
  · cases hrequire

theorem blankLines_lineComment {value : Unit} (h : lineComment c = .ok (value, d)) :
    blankLines c = blankLines d := by
  obtain ⟨text, _, hahead, hrun⟩ := bind_eq_ok.mp h
  cases hahead
  cases hn : lineCommentLength? c.rest with
  | none =>
      rw [hn] at hrun
      cases hrun
  | some n =>
      rw [hn] at hrun
      cases hrun
      obtain ⟨pos, text⟩ := c
      have hpiece : blankPiece true text = n ∧ n ≠ 0 := by
        change lineCommentLength? text = some n at hn
        rw [lineCommentLength?.eq_def] at hn
        split at hn
        · rename_i rest
          obtain ⟨m, hm, rfl⟩ := Option.map_eq_some_iff.mp hn
          have hline : lineCommentLength? (Byte.hash :: rest) = some (m + 1) :=
            congrArg (Option.map (· + 1)) hm
          exact ⟨congrArg (Option.getD · 0) hline, Nat.succ_ne_zero m⟩
        · rename_i rest
          obtain ⟨m, hm, rfl⟩ := Option.map_eq_some_iff.mp hn
          have hline : lineCommentLength? (Byte.slash :: Byte.slash :: rest) = some (m + 2) :=
            congrArg (Option.map (· + 2)) hm
          exact ⟨congrArg (Option.getD · 0) hline, Nat.succ_ne_zero _⟩
        · cases hn
      rw [blankLines]
      exact separator_step hpiece.1 hpiece.2

theorem itemEnd_eq_ok {value : Unit} (h : itemEnd c = .ok (value, d)) :
    byte Byte.comma c = .ok (⟨⟩, d) ∨
      (byte Byte.comma c = .error .miss ∧ blankLines c = blankLines d) := by
  rcases either_eq_ok.mp h with hcomma | ⟨hmiss, hend⟩
  · exact Or.inl hcomma
  · refine Or.inr ⟨hmiss, ?_⟩
    rcases either_eq_ok.mp hend with hline | ⟨-, hbrace⟩
    · obtain ⟨_, c₁, hcomment, hnewline⟩ := bind_eq_ok.mp hline
      rw [discard_eq] at hcomment
      split at hcomment
      · rename_i result c₂ hresult
        cases hcomment
        rcases optional_eq_ok.mp hresult with ⟨_, -, hrun⟩ | ⟨-, rfl, -⟩
        · rw [blankLines_lineComment hrun, blankLines_newline hnewline]
        · exact blankLines_newline hnewline
      · cases hcomment
    · obtain ⟨_, _, hahead, hrequire⟩ := bind_eq_ok.mp hbrace
      cases hahead
      rw [require_eq] at hrequire
      split at hrequire
      · cases hrequire
        rfl
      · cases hrequire

/-- In front of its closing brace an item of an object ends. -/
theorem itemEnd_brace (h : c.rest.head? = some Byte.closeBrace) : itemEnd c = .ok (⟨⟩, c) := by
  obtain ⟨rest, hrest⟩ := List.head?_eq_some_iff.mp h
  have hcomma : byte Byte.comma c = .error .miss := byte_miss (by rw [h]; decide)
  have hcomment : lineComment c = .error .miss := by
    rw [lineComment, bind_ok_eq (ahead_eq c), hrest]
    rfl
  have hline : (discard (Parser.optional lineComment) >>= fun _ => newline) c = .error .miss := by
    have hnone : (discard (Parser.optional lineComment) : Parser Unit) c = .ok (⟨⟩, c) := by
      rw [discard_eq, optional_miss hcomment]
    rw [bind_ok_eq hnone, newline, bind_ok_eq (ahead_eq c), hrest]
    rfl
  rw [itemEnd, either_miss hcomma, either_miss hline, bind_ok_eq (ahead_eq c), h]
  rfl

/-! ### Items -/

/-- The item that a key and a value make. -/
def itemOf (start : Cursor) (key value : Located Expr) : Parser Item :=
  match key.value with
  | .var _ name => do
      return .mk (← layoutFrom start [value.span]) (.ident name) value.value
  | expr => do
      return .mk (← layoutFrom start [key.span, value.span]) (.expr expr) value.value

theorem itemOf_eq_ok {start : Cursor} {key value : Located Expr} {item : Item}
    (h : itemOf start key value c = .ok (item, d)) :
    d = c ∧ ∃ name children, item = .mk ⟨some ⟨start.pos, c.pos⟩,
        gaps start.rest start.pos c.pos children, [], []⟩ name value.value ∧
      (children = [value.span] ∨ children = [key.span, value.span]) ∧
      Expr.joinableKey name = key.value.joinable := by
  obtain ⟨key, span⟩ := key
  cases key with
  | var layout name =>
      cases h
      exact ⟨rfl, _, _, rfl, Or.inl rfl, rfl⟩
  | _ =>
      cases h
      exact ⟨rfl, _, _, rfl, Or.inr rfl, rfl⟩

theorem itemOf_ok (start : Cursor) (key value : Located Expr) (c : Cursor) :
    ∃ item, itemOf start key value c = .ok (item, c) := by
  obtain ⟨key, span⟩ := key
  cases key <;> exact ⟨_, rfl⟩

theorem objectItem_eq (nested : Nested) :
    objectItem nested = (do
      let start ← get
      Parser.require ((← nextToken).any (· ≠ Byte.closeBrace))
      let key ← within blankLines blank (nested.expr false)
      Parser.must (Parser.either (Parser.byte Byte.equals) (Parser.byte Byte.colon))
      let value ← within blank blank (nested.expr false)
      Parser.must itemEnd
      itemOf start key value) :=
  rfl

theorem objectItem_eq_ok (hn : nested.Advances) {item : Item}
    (h : objectItem nested c = .ok (item, d)) :
    ∃ key value c₁ c₂ c₃ layout name,
      within blankLines blank (nested.expr false) c = .ok (key, c₁) ∧
      either (byte Byte.equals) (byte Byte.colon) c₁ = .ok (⟨⟩, c₂) ∧
      within blank blank (nested.expr false) c₂ = .ok (value, c₃) ∧ itemEnd c₃ = .ok (⟨⟩, d) ∧
      item = .mk layout name value.value ∧ Expr.joinableKey name = key.value.joinable ∧
      layout.gaps.getLast? = some (c₃.rest.take (d.pos - c₃.pos)) := by
  rw [objectItem_eq] at h
  obtain ⟨_, _, hget, h⟩ := bind_eq_ok.mp h
  cases hget
  obtain ⟨_, _, hnext, h⟩ := bind_eq_ok.mp h
  rw [nextToken_eq (separator_eq true c)] at hnext
  cases hnext
  obtain ⟨_, _, hrequire, h⟩ := bind_eq_ok.mp h
  rw [require_eq] at hrequire
  split at hrequire
  · cases hrequire
    obtain ⟨key, c₁, hkey, h⟩ := bind_eq_ok.mp h
    obtain ⟨_, c₂, hsign, h⟩ := bind_eq_ok.mp h
    obtain ⟨value, c₃, hvalue, h⟩ := bind_eq_ok.mp h
    obtain ⟨_, c₄, hend, h⟩ := bind_eq_ok.mp h
    obtain ⟨rfl, name, children, rfl, hchildren, hname⟩ := itemOf_eq_ok h
    refine ⟨key, value, c₁, c₂, c₃, _, name, hkey, must_eq_ok.mp hsign, hvalue, must_eq_ok.mp hend,
      rfl, hname, ?_⟩
    have hreach₁ := advances_within advances_blankLines (hn.expr false) advances_blank c hkey
    have hreach₂ := ((advances_byte _).either (advances_byte _)).must c₁ hsign
    have hreach₃ := advances_within advances_blank (hn.expr false) advances_blank c₂ hvalue
    have hkeyStop : key.span.stop = c₁.pos := by
      obtain ⟨_, _, _, _, _, -, -, -, rfl⟩ := within_eq_ok hkey
      rfl
    have hvalueStop : value.span.stop = c₃.pos := by
      obtain ⟨_, _, _, _, _, -, -, -, rfl⟩ := within_eq_ok hvalue
      rfl
    rcases hchildren with rfl | rfl
    · simp only [gaps, hvalueStop, ((hreach₁.trans hreach₂).trans hreach₃).drop.1]
      rfl
    · simp only [gaps, hkeyStop, hvalueStop, hreach₁.drop.1, (hreach₂.trans hreach₃).drop.1]
      rfl
  · cases hrequire

theorem objectItem_ok {key value : Located Expr} {c₀ c₁ c₂ c₃ : Cursor}
    (hblank : blankLines c = .ok (⟨⟩, c₀)) (hb : c₀.rest.head? = some b) (hne : b ≠ Byte.closeBrace)
    (hkey : within blankLines blank (nested.expr false) c = .ok (key, c₁))
    (hsign : either (byte Byte.equals) (byte Byte.colon) c₁ = .ok (⟨⟩, c₂))
    (hvalue : within blank blank (nested.expr false) c₂ = .ok (value, c₃))
    (hend : itemEnd c₃ = .ok (⟨⟩, d)) : ∃ item, objectItem nested c = .ok (item, d) := by
  have hrequire : require (c₀.rest.head?.any (· ≠ Byte.closeBrace)) c = .ok (⟨⟩, c) := by
    rw [require_eq, hb, if_pos]
    simp [hne]
  obtain ⟨item, hitem⟩ := itemOf_ok c key value d
  rw [objectItem_eq]
  exact ⟨item, bind_ok (get_eq c) (bind_ok (nextToken_eq hblank) (bind_ok hrequire (bind_ok hkey
    (bind_ok (must_eq_ok.mpr hsign) (bind_ok hvalue (bind_ok (must_eq_ok.mpr hend) hitem))))))⟩

/-- In front of the closing brace there is no item. -/
theorem objectItem_miss (hahead : Ahead behind Byte.closeBrace c)
    (h : Tracks behind (.within (.code braces) outer) text c c') :
    objectItem nested' c' = .error .miss := by
  obtain ⟨d', hblank', hhead⟩ := hahead.retrace h
  rw [objectItem_eq, bind_ok_eq (get_eq c'), bind_ok_eq (nextToken_eq hblank')]
  refine bind_error ?_
  rw [require_eq, hhead, if_neg]
  simp

/-- The sign behind a key. -/
theorem retrace_sign {value : Unit} (h : Tracks behind (.within (.code braces) outer) text c c')
    (hrun : either (byte Byte.equals) (byte Byte.colon) c = .ok (value, d))
    (hd : d.rest = text' ++ behind) :
    ∃ d', either (byte Byte.equals) (byte Byte.colon) c' = .ok (⟨⟩, d') ∧
      Tracks behind (.within (.code braces) outer) text' d d' ∧
      d'.rest.length < c'.rest.length := by
  rcases either_eq_ok.mp hrun with hequals | ⟨hmiss, hcolon⟩
  · obtain ⟨-, d', hequals', htracks, hlength, -⟩ := retrace_byte h (by decide) hequals hd
    exact ⟨d', either_ok hequals', htracks, hlength⟩
  · obtain ⟨rfl, d', hcolon', htracks, hlength, -⟩ := retrace_byte h (by decide) hcolon hd
    have hmiss' : byte Byte.equals c' = .error .miss := byte_miss fun hhead => by
      rw [byte_eq_ok hcolon'] at hhead
      exact absurd (Option.some.inj hhead) (by decide)
    exact ⟨d', (either_miss hmiss').trans hcolon', htracks, hlength⟩

/-- A key ends in front of its sign. -/
theorem ended_of_sign (hn : NestedRetraces behind bound nested nested') (hends : Ends behind)
    (h : Fit (.within (.code braces) outer) text) (hc : c.rest = text ++ behind) {value : Unit}
    (hsign : either (byte Byte.equals) (byte Byte.colon) c = .ok (value, d)) {v : Located Expr}
    {c₁ : Cursor} (hvalue : within blank blank (nested.expr false) d = .ok (v, c₁))
    (hc₁ : c₁.rest = text' ++ behind) (e : Expr) :
    Ended e (squeeze (uncommented (.within (.code braces) outer) text)) := by
  obtain ⟨text₁, hd⟩ := (advances_within advances_blank (hn.advances.expr false) advances_blank d
    hvalue).inside hc₁
  rcases either_eq_ok.mp hsign with hequals | ⟨-, hcolon⟩
  · obtain rfl := split_byte hc (byte_eq_ok hequals) hd
    rw [squeeze_token h (by decide)]
    have hfit := (h.passes_flat (by decide)).fit
    obtain ⟨b, hb, hoperand⟩ := hn.head? hends hfit hd advances_blank hvalue hc₁
    refine (noOperator_equals fun hhead => ?_).ended e
    rcases squeezeBehind_cases (uncommented (.within (.code braces) outer) text₁) with
      hsame | hspace
    · rw [hsame, Option.mem_def.mp hb] at hhead
      rw [Option.some.inj hhead] at hoperand
      exact absurd hoperand (by decide)
    · rw [hspace] at hhead
      exact absurd (Option.some.inj hhead) (by decide)
  · exact (ahead_of_byte (by decide) hcolon hd).ended (by decide) e hc h

/-- The key and the value of an item are read from both texts. -/
theorem retrace_keyValue (hn : NestedRetraces behind bound nested nested') (hends : Ends behind)
    (h : Tracks behind (.within (.code braces) outer) text c c') (hbound : c'.rest.length < bound)
    {key value : Located Expr} {c₁ c₂ : Cursor}
    (hkey : within blankLines blank (nested.expr false) c = .ok (key, c₁))
    (hsign : either (byte Byte.equals) (byte Byte.colon) c₁ = .ok (⟨⟩, c₂))
    (hvalue : within blank blank (nested.expr false) c₂ = .ok (value, d))
    (hd : d.rest = text' ++ behind) (hkeyJoin : key.value.joinable = true)
    (hvalueJoin : value.value.joinable = true)
    (hend : Fit (.within (.code braces) outer) text' →
      Ended value.value (squeeze (uncommented (.within (.code braces) outer) text'))) :
    ∃ d', (∀ ⦃e'⦄, itemEnd d' = .ok (⟨⟩, e') → ∃ item', objectItem nested' c' = .ok (item', e')) ∧
      Tracks behind (.within (.code braces) outer) text' d d' ∧
      d'.rest = squeeze (uncommented (.within (.code braces) outer) text') ∧
      d'.rest.length < c'.rest.length := by
  obtain ⟨text₂, hc₂⟩ := (advances_within advances_blank (hn.advances.expr false) advances_blank c₂
    hvalue).inside hd
  obtain ⟨text₁, hc₁⟩ := ((advances_byte _).either (advances_byte _) c₁ hsign).inside hc₂
  obtain ⟨b, hb, hoperand⟩ := hn.head? hends h.fit h.rest advances_blank hkey hc₁
  obtain ⟨c₀', hblank', hc₀', -⟩ := separator_tidy h true
  obtain ⟨key', c₁', hkey', h₁, -, hlength₁, -⟩ := hn.operand h hbound hkey hc₁ hkeyJoin
    fun hfit => ended_of_sign hn hends hfit hc₁ hsign hvalue hd key.value
  obtain ⟨c₂', hsign', h₂, hlength₂⟩ := retrace_sign h₁ hsign hc₂
  obtain ⟨value', d', hvalue', htracks, hd', hlength, -⟩ :=
    hn.operand h₂ (by omega) hvalue hd hvalueJoin hend
  refine ⟨d', fun e' hend' => ?_, htracks, hd', by omega⟩
  refine objectItem_ok hblank' (by rw [hc₀']; exact hb) (fun heq => ?_) hkey' hsign' hvalue' hend'
  exact absurd hoperand (by rw [heq]; decide)

theorem separated_cons {layout : Layout} {name : Key} {value : Expr} {items : List Item}
    (h : Expr.separated (.mk layout name value :: items) = true) :
    Expr.separated items = true ∧ (items = [] ∨ layout.gaps.getLast? = some [Byte.comma]) := by
  cases items with
  | nil => exact ⟨rfl, Or.inl rfl⟩
  | cons item items =>
      simp only [Expr.separated, Bool.and_eq_true, decide_eq_true_eq] at h
      exact ⟨h.2, Or.inr h.1⟩

theorem byte_of_take {n : Nat} (h : c.rest.take n = [b]) : ∃ d, byte b c = .ok (⟨⟩, d) := by
  have hprefix : [b] <+: c.rest := h ▸ List.take_prefix n c.rest
  obtain ⟨rest, hrest⟩ := hprefix
  obtain ⟨d, hbyte, -⟩ := byte_ok (c := c) hrest.symm
  exact ⟨d, hbyte⟩

/-- The last item of an object is read from both texts, up to the brace. -/
theorem retrace_lastItem (hn : NestedRetraces behind bound nested nested') (hends : Ends behind)
    (h : Tracks behind (.within (.code braces) outer) text c c') (hbound : c'.rest.length < bound)
    {key value : Located Expr} {c₁ c₂ c₃ : Cursor}
    (hkey : within blankLines blank (nested.expr false) c = .ok (key, c₁))
    (hsign : either (byte Byte.equals) (byte Byte.colon) c₁ = .ok (⟨⟩, c₂))
    (hvalue : within blank blank (nested.expr false) c₂ = .ok (value, c₃))
    (hblank : blankLines c₃ = .ok (⟨⟩, d)) (hd : d.rest = Byte.closeBrace :: text' ++ behind)
    (hkeyJoin : key.value.joinable = true) (hvalueJoin : value.value.joinable = true) :
    ∃ items' c₃' d', Repeats (located (objectItem nested')) c' items' c₃' ∧
      blankLines c₃' = .ok (⟨⟩, d') ∧
      Tracks behind (.within (.code braces) outer) (Byte.closeBrace :: text') d d' ∧
      d'.rest.length ≤ c'.rest.length := by
  have hahead : Ahead behind Byte.closeBrace c₃ := ⟨d, text', hblank, hd⟩
  obtain ⟨text₃, hc₃⟩ := (advances_blankLines c₃ hblank).inside hd
  obtain ⟨c₃', hitem', h₃, hc₃', hlength₃⟩ := retrace_keyValue hn hends h hbound hkey hsign hvalue
    hc₃ hkeyJoin hvalueJoin fun hfit => hahead.ended (by decide) value.value hc₃ hfit
  have hbrace : c₃'.rest.head? = some Byte.closeBrace := by rw [hc₃', hahead.head? h₃.fit hc₃]
  obtain ⟨item', hitem'⟩ := hitem' (itemEnd_brace hbrace)
  have hmiss' : objectItem nested' c₃' = .error .miss := objectItem_miss hahead h₃
  obtain ⟨d', hblank', htracks, -, -, hlength, -⟩ := retrace_blank h₃ hblank hd true
  exact ⟨_, c₃', d', .next (located_ok hitem') (by omega)
    (.stop (by rw [located_eq, hmiss'])), hblank', htracks, by omega⟩

/-- The items of an object are read from both texts. -/
theorem retrace_objectItems (hn : NestedRetraces behind bound nested nested') (hends : Ends behind)
    {items : List (Located Item)} (hrun : Chain (located (objectItem nested)) c items d)
    (h : Tracks behind (.within (.code braces) outer) text c c') (hbound : c'.rest.length < bound)
    {c₁ : Cursor} (hblank : blankLines d = .ok (⟨⟩, c₁))
    (hc₁ : c₁.rest = Byte.closeBrace :: text' ++ behind)
    (hsep : Expr.separated (items.map (·.value)) = true)
    (hjoin : Expr.joinableItems (items.map (·.value)) = true) :
    ∃ items' d' c₁', Repeats (located (objectItem nested')) c' items' d' ∧
      blankLines d' = .ok (⟨⟩, c₁') ∧
      Tracks behind (.within (.code braces) outer) (Byte.closeBrace :: text') c₁ c₁' ∧
      c₁'.rest.length ≤ c'.rest.length := by
  induction hrun generalizing text c' with
  | nil c =>
      obtain ⟨c₁', hblank', h₁, -, -, hlength, -⟩ := retrace_blank h hblank hc₁ true
      have hmiss : objectItem nested' c' = .error .miss :=
        objectItem_miss ⟨c₁, text', hblank, hc₁⟩ h
      exact ⟨[], c', c₁', .stop (by rw [located_eq, hmiss]), hblank', h₁, hlength⟩
  | @cons c c₂ d item others hitem hothers ih =>
      obtain ⟨key, value, c₃, c₄, c₅, layout, name, hkey, hsign, hvalue, hend, hvalueItem, hname,
        hgap⟩ :=
        objectItem_eq_ok hn.advances (located_eq_ok hitem)
      rw [List.map_cons, hvalueItem] at hsep
      obtain ⟨hothersSep, hlast⟩ := separated_cons hsep
      have hothersJoin : key.value.joinable = true ∧ value.value.joinable = true ∧
          Expr.joinableItems (others.map (·.value)) = true := by
        simpa [hvalueItem, Expr.joinableItems, hname, Bool.and_eq_true, and_assoc] using hjoin
      obtain ⟨hkeyJoin, hvalueJoin, hothersJoin⟩ := hothersJoin
      rcases itemEnd_eq_ok hend with hcomma | ⟨hmiss, hsame⟩
      · obtain ⟨text₀, hd⟩ := (advances_blankLines d hblank).inside hc₁
        obtain ⟨text₂, hc₂⟩ :=
          (hothers.reaches (advances_objectItem hn.advances).located).inside hd
        obtain ⟨text₅, hc₅⟩ := (advances_byte _ c₅ hcomma).inside hc₂
        obtain ⟨c₅', hitem', h₅, -, hlength₅⟩ :=
          retrace_keyValue hn hends h hbound hkey hsign hvalue hc₅
          hkeyJoin hvalueJoin fun hfit =>
            (ahead_of_byte (by decide) hcomma hc₂).ended (by decide) value.value hc₅ hfit
        obtain ⟨-, c₂', hcomma', h₂, hlength₂, -⟩ := retrace_byte h₅ (by decide) hcomma hc₂
        obtain ⟨item', hitem'⟩ := hitem' (either_ok hcomma')
        obtain ⟨items', d', c₁', hothers', hblank', h₁, hlength₁⟩ :=
          ih h₂ (by omega) hblank hothersSep hothersJoin
        exact ⟨_ :: items', d', c₁', .next (located_ok hitem') (by omega) hothers', hblank',
          h₁, by omega⟩
      · -- only a comma sets an item apart from another one, so this is the last item
        rcases hlast with hlast | hlast
        · obtain rfl := List.map_eq_nil_iff.mp hlast
          cases hothers
          exact retrace_lastItem hn hends h hbound hkey hsign hvalue (hsame.trans hblank) hc₁
            hkeyJoin hvalueJoin
        · rw [hgap] at hlast
          obtain ⟨_, hcomma⟩ := byte_of_take (Option.some.inj hlast)
          rw [hmiss] at hcomma
          cases hcomma

/-! ### Objects -/

theorem opensComprehension_stays {loops : Bool} (h : opensComprehension c = .ok (loops, d)) :
    d = c := by
  rw [opensComprehension_eq (separator_eq true c)] at h
  cases h
  rfl

theorem gaps_length (text : Bytes) (pos stop : Nat) (children : List Span) :
    (gaps text pos stop children).length = children.length + 1 := by
  induction children generalizing text pos with
  | nil => rfl
  | cons child rest ih => rw [gaps, List.length_cons, ih, List.length_cons]

theorem object_eq_ok {e : Expr} (h : object nested c = .ok (e, d)) :
    ∃ c₁, byte Byte.openBrace c = .ok (⟨⟩, c₁) ∧
      ((opensComprehension c₁ = .ok (true, c₁) ∧ comprehension nested c true c₁ = .ok (e, d)) ∨
        (opensComprehension c₁ = .ok (false, c₁) ∧ ∃ items c₂ c₃ layout,
          Chain (located (objectItem nested)) c₁ items c₂ ∧ blankLines c₂ = .ok (⟨⟩, c₃) ∧
          byte Byte.closeBrace c₃ = .ok (⟨⟩, d) ∧
          e = .object layout (Item.lastOfEach (items.map (·.value))) ∧
          layout.gaps.length = items.length + 1)) := by
  obtain ⟨_, _, hget, h⟩ := bind_eq_ok.mp h
  cases hget
  obtain ⟨_, c₁, hopen, h⟩ := bind_eq_ok.mp h
  obtain ⟨loops, c₀, hloops, h⟩ := bind_eq_ok.mp h
  obtain rfl := opensComprehension_stays hloops
  refine ⟨c₀, hopen, ?_⟩
  cases loops with
  | true => exact Or.inl ⟨hloops, h⟩
  | false =>
      obtain ⟨items, c₂, hitems, h⟩ := bind_eq_ok.mp h
      obtain ⟨_, c₃, hblank, h⟩ := bind_eq_ok.mp h
      obtain ⟨_, c₄, hclose, h⟩ := bind_eq_ok.mp h
      cases h
      exact Or.inr ⟨hloops, items, c₂, c₃, _, chain_of_many hitems, hblank,
        must_eq_ok.mp hclose, rfl,
        by rw [gaps_length, spans, List.length_map]⟩

theorem object_comprehension {e : Expr} {c₁ : Cursor} (hopen : byte Byte.openBrace c = .ok (⟨⟩, c₁))
    (hloops : opensComprehension c₁ = .ok (true, c₁))
    (hrun : comprehension nested c true c₁ = .ok (e, d)) : object nested c = .ok (e, d) :=
  bind_ok (get_eq c) (bind_ok hopen (bind_ok hloops hrun))

theorem object_ok {items : List (Located Item)} {c₁ c₂ c₃ : Cursor}
    (hopen : byte Byte.openBrace c = .ok (⟨⟩, c₁))
    (hloops : opensComprehension c₁ = .ok (false, c₁))
    (hitems : Repeats (located (objectItem nested)) c₁ items c₂)
    (hblank : blankLines c₂ = .ok (⟨⟩, c₃))
    (hclose : byte Byte.closeBrace c₃ = .ok (⟨⟩, d)) :
    ∃ e, object nested c = .ok (e, d) ∧ e.form = .built :=
  ⟨_, bind_ok (get_eq c) (bind_ok hopen (bind_ok hloops (bind_ok hitems.many (bind_ok hblank
    (bind_ok (must_eq_ok.mpr hclose) rfl))))), rfl⟩

/-- In braces the next token is within the text. -/
theorem inside_items (hn : nested.Advances) {items : List (Located Item)} {c₁ : Cursor}
    (hitems : Chain (located (objectItem nested)) c items c₁) (hblank : blankLines c₁ = .ok (⟨⟩, d))
    (hd : d.rest = text ++ behind) :
    ∃ c₂ text₂, blankLines c = .ok (⟨⟩, c₂) ∧ c₂.rest = text₂ ++ behind := by
  cases hitems with
  | nil => exact ⟨d, text, hblank, hd⟩
  | cons hitem hothers =>
      obtain ⟨text₁, hc₁⟩ := (advances_blankLines _ hblank).inside hd
      obtain ⟨text₃, hc₃⟩ := (hothers.reaches (advances_objectItem hn).located).inside hc₁
      obtain ⟨key, value, c₄, c₅, c₆, layout, name, hkey, hsign, hvalue, hend, -⟩ :=
        objectItem_eq_ok hn (located_eq_ok hitem)
      obtain ⟨text₆, hc₆⟩ := (advances_itemEnd c₆ hend).inside hc₃
      obtain ⟨text₅, hc₅⟩ :=
        (advances_within advances_blank (hn.expr false) advances_blank c₅ hvalue).inside hc₆
      obtain ⟨text₄, hc₄⟩ := ((advances_byte _).either (advances_byte _) c₄ hsign).inside hc₅
      obtain ⟨c₂, c₇, e, before, after, hfront, hp, hback, -⟩ := within_eq_ok hkey
      obtain ⟨text₇, hc₇⟩ := (advances_blank c₇ hback).inside hc₄
      obtain ⟨text₂, hc₂⟩ := (hn.expr false c₂ hp).inside hc₇
      exact ⟨c₂, text₂, hfront, hc₂⟩

/-- An object is read from both texts. -/
theorem retrace_object (hn : NestedRetraces behind bound nested nested') (hends : Ends behind)
    (h : Tracks behind (.within (.code braces) outer) text c c') (hbound : c'.rest.length ≤ bound)
    {e : Expr} (hrun : object nested c = .ok (e, d)) (hd : d.rest = text' ++ behind)
    (hjoin : e.joinable = true) :
    ∃ e' d', object nested' c' = .ok (e', d') ∧
      Tracks behind (.within (.code braces) outer) text' d d' ∧
      d'.rest.length < c'.rest.length ∧ e'.form = e.form := by
  obtain ⟨c₁, hopen, ⟨hloops, hcomprehension⟩ |
    ⟨hloops, items, c₂, c₃, layout, hitems, hblank, hclose, rfl, hgaps⟩⟩ := object_eq_ok hrun
  · obtain ⟨text₁, hc₁⟩ := (advances_comprehension hn.advances c true c₁ hcomprehension).inside hd
    obtain ⟨c₁', hopen', h₁, hlength₁, hfor⟩ := retrace_opener true h hopen hc₁
    obtain ⟨e', d', hloops', hcomprehension', htracks, hlength, hform', hform⟩ :=
      retrace_comprehension hn c' h₁ hfor (by omega) hloops hcomprehension hd hjoin
    exact ⟨e', d', object_comprehension hopen' hloops' hcomprehension', htracks, by omega,
      hform'.trans hform.symm⟩
  · obtain ⟨text₃, hc₃⟩ := (advances_byte _ c₃ hclose).inside hd
    obtain ⟨text₂, hc₂⟩ := (advances_blankLines c₂ hblank).inside hc₃
    obtain ⟨text₁, hc₁⟩ := (hitems.reaches (advances_objectItem hn.advances).located).inside hc₂
    obtain rfl := split_byte hc₃ (byte_eq_ok hclose) hd
    simp only [Expr.joinable, Bool.and_eq_true, decide_eq_true_eq, hgaps, Nat.add_right_cancel_iff]
      at hjoin
    obtain ⟨⟨hcount, hsep⟩, hitemsJoin⟩ := hjoin
    have hall : Item.lastOfEach (items.map (·.value)) = items.map (·.value) :=
      Item.lastOfEach_eq_self (by rw [List.length_map, hcount])
    rw [hall] at hsep hitemsJoin
    obtain ⟨c₁', hopen', h₁, hlength₁, hfor⟩ := retrace_opener true h hopen hc₁
    obtain ⟨c₀, text₀, hblank₀, hc₀⟩ := inside_items hn.advances hitems hblank hc₃
    have hahead : forAhead c₀.rest = false := by
      rw [opensComprehension_eq hblank₀] at hloops
      exact congrArg Prod.fst (Except.ok.inj hloops)
    have hloops' : opensComprehension c₁' = .ok (false, c₁') :=
      retrace_opensComprehension h₁ hfor hblank₀ hc₀ hahead fun hfalse => by cases hfalse
    obtain ⟨items', c₂', c₃', hitems', hblank', h₃, hlength₃⟩ :=
      retrace_objectItems hn hends hitems h₁ (by omega) hblank hc₃ hsep hitemsJoin
    obtain ⟨d', hclose', htracks, hlength⟩ := retrace_closer true h₃ hclose hd
    obtain ⟨e', hrun', hform⟩ := object_ok hopen' hloops' hitems' hblank' hclose'
    exact ⟨e', d', hrun', htracks, by omega, hform⟩

end

end Grammar

end HclToJson
