import HclToJson.Proofs.Requote.Step

namespace HclToJson.Grammar

open Comment Text HclToJson.Parser

section

variable {behind text text' : Bytes} {bound braces : Nat} {outer : List Frame} {c c' d : Cursor}
  {nested nested' : Nested} {b : UInt8}

/-! ### Binary operators -/

/-- An operator is found in front of all but an equals sign, which may make it another one. -/
theorem find?_operator {pair : Bytes × BinaryOp} (hpair : pair ∈ binaryOps) {rest : Bytes}
    (hrest : rest.head? ≠ some Byte.equals) :
    binaryOps.find? (·.1.isPrefixOf (pair.1 ++ rest)) = some pair := by
  simp only [binaryOps, List.mem_cons, List.not_mem_nil, or_false] at hpair
  cases rest with
  | nil => rcases hpair with rfl | rfl | rfl | rfl | rfl | rfl | rfl | rfl | rfl | rfl | rfl | rfl |
    rfl <;> rfl
  | cons e rest =>
      have he : (Byte.equals == e) = false :=
        beq_eq_false_iff_ne.mpr fun heq => hrest (by rw [heq]; rfl)
      rcases hpair with rfl | rfl | rfl | rfl | rfl | rfl | rfl | rfl | rfl | rfl | rfl |
        rfl | rfl <;>
        simp +decide [binaryOps, List.isPrefixOf, he]

theorem binaryOp_eq_ok {op : BinaryOp} (h : binaryOp c = .ok (op, d)) :
    ∃ spelling, (spelling, op) ∈ binaryOps ∧ c.rest = spelling ++ d.rest := by
  obtain ⟨_, _, hahead, hrun⟩ := bind_eq_ok.mp h
  cases hahead
  cases hfind : binaryOps.find? (·.1.isPrefixOf c.rest) with
  | none =>
      rw [hfind] at hrun
      cases hrun
  | some pair =>
      obtain ⟨spelling, op'⟩ := pair
      rw [hfind] at hrun
      cases hrun
      have hprefix : spelling.isPrefixOf c.rest = true := by
        have hsome := List.find?_some hfind
        exact hsome
      obtain ⟨rest, hrest⟩ := List.isPrefixOf_iff_prefix.mp hprefix
      exact ⟨spelling, List.mem_of_find?_eq_some hfind, by rw [← hrest, List.drop_left]⟩

theorem binaryOp_ok {spelling rest : Bytes} {op : BinaryOp} (hmem : (spelling, op) ∈ binaryOps)
    (hc : c.rest = spelling ++ rest) (hrest : rest.head? ≠ some Byte.equals) :
    ∃ d, binaryOp c = .ok (op, d) ∧ d.rest = rest := by
  have hfind := find?_operator hmem hrest
  obtain ⟨pos, text⟩ := c
  obtain rfl : text = spelling ++ rest := hc
  rw [binaryOp, bind_ok_eq (ahead_eq _), hfind]
  exact ⟨_, rfl, List.drop_left⟩

theorem endsExpression_eq_false {e : UInt8} {rest : Bytes} (hdot : b ≠ Byte.dot)
    (hslash : b = Byte.slash → e ≠ Byte.slash ∧ e ≠ Byte.star) :
    endsExpression (b :: e :: rest) = false := by
  have hb : ¬ Byte.dot = b := fun heq => hdot heq.symm
  simp only [endsExpression, List.drop_succ_cons, List.drop_zero, List.isEmpty_cons,
    List.isPrefixOf, Bool.and_true, Bool.false_or, Bool.or_eq_false_iff, Bool.and_eq_false_iff,
    beq_eq_false_iff_ne]
  by_cases heq : b = Byte.slash
  · obtain ⟨h₁, h₂⟩ := hslash heq
    exact ⟨⟨Or.inr fun h => h₁ h.symm, Or.inr fun h => h₂ h.symm⟩, Or.inl hb⟩
  · exact ⟨⟨Or.inl fun h => heq h.symm, Or.inl fun h => heq h.symm⟩, Or.inl hb⟩

/-- What an operator of the text is in the squeezed text. -/
theorem operator_squeeze {spelling : Bytes} {op : BinaryOp} (hmem : (spelling, op) ∈ binaryOps)
    (h : Fit (.within (.code braces) outer) (spelling ++ text))
    (hends : endsExpression (spelling ++ text ++ behind) = false) :
    Fit (.within (.code braces) outer) text ∧
      squeeze (uncommented (.within (.code braces) outer) (spelling ++ text)) =
        spelling ++ squeezeBehind (uncommented (.within (.code braces) outer) text) := by
  have hall : ∀ pair ∈ binaryOps, pair.1 ≠ [] ∧
      (pair.1.all (TokenByte ·) = true ∨ pair.1 = [Byte.slash]) :=
    forall_mem_of_all rfl
  obtain ⟨hspelling, htokens | hslash⟩ := hall _ hmem
  · have hflat : ∀ b ∈ spelling, Flat b ∧ Byte.isBlank b = false := fun b hb =>
      (forall_mem_of_all htokens b hb).flat
    exact ⟨(Fit.run h hflat).1.fit, squeeze_run h hspelling hflat⟩
  · obtain rfl : spelling = [Byte.slash] := hslash
    have hopens : ¬ Opens Byte.slash text := by
      intro hopens
      have hmark : text.head? = some Byte.slash ∨ text.head? = some Byte.star := by
        have hhash : ¬ Byte.slash = Byte.hash := by decide
        simpa [Opens, opensLine, hhash] using hopens
      rcases hmark with hmark | hmark <;>
        (obtain ⟨rest, rfl⟩ := List.head?_eq_some_iff.mp hmark
         simp [endsExpression, List.isPrefixOf] at hends)
    have hfit : Fit (.within (.code braces) outer) (Byte.slash :: text) := h
    have hpasses := hfit.passes_code hopens
    rw [next_flat (by decide) hopens] at hpasses
    refine ⟨hpasses.fit, ?_⟩
    rw [List.singleton_append, hpasses.uncommented, List.singleton_append,
      squeeze_inked (whiteLength_token (by decide) _)]
    rfl

/-- A binary operator is read from both texts. -/
theorem retrace_operator {spelling : Bytes} {op : BinaryOp} (hmem : (spelling, op) ∈ binaryOps)
    (h : Tracks behind (.within (.code braces) outer) (spelling ++ text') c c')
    (htidy : c'.rest = squeeze (uncommented (.within (.code braces) outer) (spelling ++ text')))
    (hends : endsExpression c.rest = false) (hd : d.rest = text' ++ behind)
    (hoperand : Fit (.within (.code braces) outer) text' →
      ∃ b ∈ (squeeze (uncommented (.within (.code braces) outer) text')).head?, OperandByte b) :
    endsExpression c'.rest = false ∧ c'.rest.head? ≠ some Byte.question ∧
      opensStep c'.rest = false ∧ ∃ d', binaryOp c' = .ok (op, d') ∧
      Tracks behind (.within (.code braces) outer) text' d d' ∧
      d'.rest.length < c'.rest.length := by
  rw [h.rest] at hends
  obtain ⟨hfit, hsqueeze⟩ := operator_squeeze hmem h.fit hends
  obtain ⟨b, hb, hoperand⟩ := hoperand hfit
  obtain ⟨e, rest, hrest, he⟩ : ∃ e rest,
      squeezeBehind (uncommented (.within (.code braces) outer) text') = e :: rest ∧
        e ∉ [Byte.equals, Byte.slash, Byte.star] := by
    rcases squeezeBehind_cases (uncommented (.within (.code braces) outer) text') with
      hsame | hspace
    · obtain ⟨rest, hrest⟩ := List.head?_eq_some_iff.mp hb
      refine ⟨b, rest, by rw [hsame, hrest], fun hmem => ?_⟩
      have hnot : ∀ b ∈ [Byte.equals, Byte.slash, Byte.star], ¬ OperandByte b :=
        forall_mem_of_all rfl
      exact hnot b hmem hoperand
    · exact ⟨_, _, hspace, by decide⟩
  have hfirst : ∀ pair ∈ binaryOps, ∃ b ∈ pair.1.head?, b ≠ Byte.dot ∧ b ≠ Byte.openBracket ∧
      b ≠ Byte.question ∧ (b = Byte.slash → pair.1 = [Byte.slash]) :=
    forall_mem_of_all rfl
  obtain ⟨x, hx, hdot, hbracket, hquestion, hslash⟩ := hfirst _ hmem
  obtain ⟨others, rfl⟩ : ∃ others, spelling = x :: others := List.head?_eq_some_iff.mp hx
  rw [htidy, hsqueeze, hrest]
  rw [hsqueeze, hrest] at htidy
  obtain ⟨d', hop, hd'⟩ := binaryOp_ok hmem htidy fun hhead => he (by
    rw [List.head?_cons] at hhead
    rw [Option.some.inj hhead]
    decide)
  refine ⟨?_, fun hhead => hquestion (Option.some.inj hhead), ?_, d', hop,
    ⟨hd, hfit, Or.inr (hd'.trans hrest.symm)⟩, ?_⟩
  · cases others with
    | nil =>
        exact endsExpression_eq_false hdot fun _ => ⟨fun heq => he (by rw [heq]; decide),
          fun heq => he (by rw [heq]; decide)⟩
    | cons y others =>
        exact endsExpression_eq_false hdot fun heq => absurd (hslash heq) (by simp)
  · exact opensStep_eq_false fun b hb => by
      obtain rfl : x = b := by simpa using hb
      exact ⟨hdot, hbracket⟩
  · rw [hd', List.length_append, List.length_cons, List.length_cons]
    omega

/-! ### Operations -/

theorem operation_eq_ok {newlines : Bool} {start : Cursor} {left e : Expr}
    (h : operation nested newlines start left c = .ok (e, d)) :
    (e = left ∧ d = c) ∨
    (∃ c₁ c₂ c₃ c₄ yes no between layout, separator newlines c = .ok (⟨⟩, c₁) ∧
      byte Byte.question c₁ = .ok (⟨⟩, c₂) ∧
      within (separator newlines) (separator newlines) (nested.expr newlines) c₂ = .ok (yes, c₃) ∧
      byte Byte.colon c₃ = .ok (⟨⟩, c₄) ∧
      within (separator newlines) (pure ()) (nested.expr newlines) c₄ = .ok (no, d) ∧
      e = .conditional layout (left.followedBy between).withoutSpan yes.value no.value) ∨
    (∃ c₁ c₂ op right between layout, separator newlines c = .ok (⟨⟩, c₁) ∧
      endsExpression c₁.rest = false ∧ binaryOp c₁ = .ok (op, c₂) ∧
      within (separator newlines) (pure ()) (nested.expr newlines) c₂ = .ok (right, d) ∧
      e = .binary layout op (left.followedBy between) right.value) := by
  obtain ⟨_, _, hget, hrun⟩ := bind_eq_ok.mp h
  cases hget
  obtain ⟨between, c₁, hbetween, hrun⟩ := bind_eq_ok.mp hrun
  obtain ⟨_, _, hahead, hrun⟩ := bind_eq_ok.mp hrun
  cases hahead
  obtain ⟨_, _, hget, hrun⟩ := bind_eq_ok.mp hrun
  cases hget
  simp only at hrun
  split at hrun
  · cases hrun
    exact Or.inl ⟨rfl, rfl⟩
  · rename_i hends
    split at hrun
    · obtain ⟨_, c₂, hquestion, hrun⟩ := bind_eq_ok.mp hrun
      obtain ⟨yes, c₃, hyes, hrun⟩ := bind_eq_ok.mp hrun
      obtain ⟨_, c₄, hcolon, hrun⟩ := bind_eq_ok.mp hrun
      obtain ⟨no, c₅, hno, hrun⟩ := bind_eq_ok.mp hrun
      cases hrun
      exact Or.inr (Or.inl ⟨c₁, c₂, c₃, c₄, yes, no, between, _, spelling_eq_ok hbetween, hquestion,
        hyes, must_eq_ok.mp hcolon, hno, rfl⟩)
    · obtain ⟨op, c₂, hop, hrun⟩ := bind_eq_ok.mp hrun
      rcases optional_eq_ok.mp hop with ⟨op, rfl, hbinary⟩ | ⟨rfl, rfl, -⟩
      · obtain ⟨right, c₃, hright, hrun⟩ := bind_eq_ok.mp hrun
        cases hrun
        exact Or.inr (Or.inr ⟨c₁, c₂, op, right, between, _, spelling_eq_ok hbetween,
          by simpa using hends, hbinary, hright, rfl⟩)
      · cases hrun
        exact Or.inl ⟨rfl, rfl⟩

theorem operation_conditional {newlines : Bool} (start : Cursor) (left : Expr)
    {c₁ c₂ c₃ c₄ : Cursor} {yes no : Located Expr}
    (hseparator : separator newlines c = .ok (⟨⟩, c₁))
    (hends : endsExpression c₁.rest = false) (hquestion : byte Byte.question c₁ = .ok (⟨⟩, c₂))
    (hyes : within (separator newlines) (separator newlines) (nested.expr newlines) c₂ =
      .ok (yes, c₃))
    (hcolon : byte Byte.colon c₃ = .ok (⟨⟩, c₄))
    (hno : within (separator newlines) (pure ()) (nested.expr newlines) c₄ = .ok (no, d)) :
    ∃ e, operation nested newlines start left c = .ok (e, d) ∧ e.form = .quoted := by
  obtain ⟨between, hbetween⟩ := spelling_ok hseparator
  have hhead : c₁.rest.head? = some Byte.question := by
    rw [byte_eq_ok hquestion]
    rfl
  rw [operation, bind_ok_eq (get_eq c)]
  simp only
  rw [bind_ok_eq hbetween, bind_ok_eq (ahead_eq c₁), bind_ok_eq (get_eq c₁),
    if_neg (by simp [hends]),
    if_pos hhead]
  exact ⟨.conditional _ _ yes.value no.value, bind_ok hquestion (bind_ok hyes
    (bind_ok (must_eq_ok.mpr hcolon) (bind_ok hno rfl))), rfl⟩

theorem operation_binary {newlines : Bool} (start : Cursor) (left : Expr) {c₁ c₂ : Cursor}
    {op : BinaryOp} {right : Located Expr} (hseparator : separator newlines c = .ok (⟨⟩, c₁))
    (hends : endsExpression c₁.rest = false) (hquestion : c₁.rest.head? ≠ some Byte.question)
    (hop : binaryOp c₁ = .ok (op, c₂))
    (hright : within (separator newlines) (pure ()) (nested.expr newlines) c₂ = .ok (right, d)) :
    ∃ e, operation nested newlines start left c = .ok (e, d) ∧ e.form = .quoted := by
  obtain ⟨between, hbetween⟩ := spelling_ok hseparator
  rw [operation, bind_ok_eq (get_eq c)]
  simp only
  rw [bind_ok_eq hbetween, bind_ok_eq (ahead_eq c₁), bind_ok_eq (get_eq c₁),
    if_neg (by simp [hends]),
    if_neg hquestion, bind_ok_eq (optional_ok hop)]
  exact ⟨.binary _ op _ right.value, bind_ok hright rfl, rfl⟩

/-- An operation of a text ends in the text, and so do its parts. -/
theorem operation_inside (hn : nested.Advances) {newlines : Bool} {start : Cursor} {left e : Expr}
    (hrun : operation nested newlines start left c = .ok (e, d)) (hd : d.rest = text' ++ behind) :
    (e = left ∧ d = c) ∨
    (∃ c₁ c₂ c₃ c₄ text₂ text₃ text₄ yes no between layout, separator newlines c = .ok (⟨⟩, c₁) ∧
      c₁.rest = Byte.question :: text₂ ++ behind ∧ byte Byte.question c₁ = .ok (⟨⟩, c₂) ∧
      c₂.rest = text₂ ++ behind ∧
      within (separator newlines) (separator newlines) (nested.expr newlines) c₂ = .ok (yes, c₃) ∧
      c₃.rest = text₃ ++ behind ∧ byte Byte.colon c₃ = .ok (⟨⟩, c₄) ∧
      c₄.rest = text₄ ++ behind ∧
      within (separator newlines) (pure ()) (nested.expr newlines) c₄ = .ok (no, d) ∧
      e = .conditional layout (left.followedBy between).withoutSpan yes.value no.value) ∨
    (∃ c₁ c₂ spelling text₂ op right between layout, separator newlines c = .ok (⟨⟩, c₁) ∧
      c₁.rest = spelling ++ text₂ ++ behind ∧ (spelling, op) ∈ binaryOps ∧
      endsExpression c₁.rest = false ∧ c₂.rest = text₂ ++ behind ∧
      within (separator newlines) (pure ()) (nested.expr newlines) c₂ = .ok (right, d) ∧
      e = .binary layout op (left.followedBy between) right.value) := by
  rcases operation_eq_ok hrun with hsame |
    ⟨c₁, c₂, c₃, c₄, yes, no, between, layout, hseparator, hquestion, hyes, hcolon, hno, he⟩ |
    ⟨c₁, c₂, op, right, between, layout, hseparator, hends, hop, hright, he⟩
  · exact Or.inl hsame
  · obtain ⟨text₄, hc₄⟩ := (advances_within (advances_separator newlines)
      (hn.expr newlines) (advances_pure ⟨⟩) c₄ hno).inside hd
    obtain ⟨text₃, hc₃⟩ := (advances_byte _ c₃ hcolon).inside hc₄
    obtain ⟨text₂, hc₂⟩ := (advances_within (advances_separator newlines)
      (hn.expr newlines) (advances_separator newlines) c₂ hyes).inside hc₃
    have hc₁ : c₁.rest = Byte.question :: text₂ ++ behind := by rw [byte_eq_ok hquestion, hc₂]; rfl
    exact Or.inr (Or.inl ⟨c₁, c₂, c₃, c₄, text₂, text₃, text₄, yes, no, between, layout, hseparator,
      hc₁, hquestion, hc₂, hyes, hc₃, hcolon, hc₄, hno, he⟩)
  · obtain ⟨text₂, hc₂⟩ := (advances_within (advances_separator newlines)
      (hn.expr newlines) (advances_pure ⟨⟩) c₂ hright).inside hd
    obtain ⟨spelling, hmem, hspelling⟩ := binaryOp_eq_ok hop
    rw [hc₂, ← List.append_assoc] at hspelling
    exact Or.inr (Or.inr ⟨c₁, c₂, spelling, text₂, op, right, between, layout, hseparator,
      hspelling, hmem, hends, hc₂, hright, he⟩)

/-- In front of an operation there is no operator of a traversal. -/
theorem opensStep_operation (hn : NestedRetraces behind bound nested nested') {newlines : Bool}
    {start : Cursor} {left e : Expr} (hrun : operation nested newlines start left c = .ok (e, d))
    (hc : c.rest = text ++ behind) (hd : d.rest = text' ++ behind) :
    (e = left ∧ d = c) ∨ (Fit (.within (.code braces) outer) text →
      opensStep (squeeze (uncommented (.within (.code braces) outer) text)) = false) := by
  rcases operation_inside hn.advances hrun hd with hsame |
    ⟨c₁, c₂, c₃, c₄, text₂, text₃, text₄, yes, no, between, layout, hseparator, hc₁, -⟩ |
    ⟨c₁, c₂, spelling, text₂, op, right, between, layout, hseparator, hc₁, hmem, hends, -⟩
  · exact Or.inl hsame
  · refine Or.inr fun hfit => ?_
    obtain ⟨hfit₁, hsame, -⟩ := retrace_separator hfit hc hseparator hc₁
    rw [hsame, squeeze_token hfit₁ (by decide)]
    exact opensStep_eq_false fun b hb => by
      obtain rfl : Byte.question = b := by simpa using hb
      decide
  · refine Or.inr fun hfit => ?_
    obtain ⟨hfit₁, hsame, -⟩ := retrace_separator hfit hc hseparator hc₁
    rw [hc₁] at hends
    rw [hsame, (operator_squeeze hmem hfit₁ hends).2]
    have hfirst : ∀ pair ∈ binaryOps, ∃ b ∈ pair.1.head?, b ≠ Byte.dot ∧ b ≠ Byte.openBracket :=
      forall_mem_of_all rfl
    obtain ⟨x, hx, hne⟩ := hfirst _ hmem
    obtain ⟨others, rfl⟩ : ∃ others, spelling = x :: others := List.head?_eq_some_iff.mp hx
    exact opensStep_eq_false fun b hb => by
      obtain rfl : x = b := by simpa using hb
      exact hne

/-- An operation is read from both texts, or is in neither. -/
theorem retrace_operation (hn : NestedRetraces behind bound nested nested') (hends : Ends behind)
    (h : Tracks behind (.within (.code braces) outer) text c c') (hbound : c'.rest.length ≤ bound)
    {newlines : Bool} {start : Cursor} (start' : Cursor) {left left' e : Expr}
    (hform : left'.form = left.form) (hrun : operation nested newlines start left c = .ok (e, d))
    (hd : d.rest = text' ++ behind) (hjoin : e.joinable = true)
    (hend : Fit (.within (.code braces) outer) text' →
      Ended e (squeeze (uncommented (.within (.code braces) outer) text'))) :
    ∃ e' d', operation nested' newlines start' left' c' = .ok (e', d') ∧
      Tracks behind (.within (.code braces) outer) text' d d' ∧
      d'.rest.length ≤ c'.rest.length ∧ e'.form = e.form := by
  rcases operation_inside hn.advances hrun hd with ⟨rfl, rfl⟩ |
    ⟨c₁, c₂, c₃, c₄, text₂, text₃, text₄, yes, no, between, layout, hseparator, hc₁, hquestion, hc₂,
      hyes, hc₃, hcolon, hc₄, hno, rfl⟩ |
    ⟨c₁, c₂, spelling, text₂, op, right, between, layout, hseparator, hc₁, hmem, hnotEnd, hc₂,
      hright, rfl⟩
  · obtain rfl := List.append_cancel_right (h.rest.symm.trans hd)
    obtain ⟨c₁', hseparator', hc₁', -⟩ := separator_tidy h newlines
    exact ⟨left', c', operation_left start' left' hseparator'
      (by rw [hc₁']; exact (hend h.fit).closes),
      h, Nat.le_refl _, hform⟩
  · simp only [Expr.joinable, Bool.and_eq_true] at hjoin
    obtain ⟨⟨-, hyesJoin⟩, hnoJoin⟩ := hjoin
    obtain ⟨c₁', hseparator', h₁, -, -, hlength₁, -⟩ := retrace_blank h hseparator hc₁ newlines
    obtain ⟨-, c₂', hquestion', h₂, hlength₂, -⟩ := retrace_byte h₁ (by decide) hquestion hc₂
    obtain ⟨yes', c₃', hyes', h₃, -, hlength₃, -⟩ := hn.operand h₂ (by omega) hyes hc₃ hyesJoin
      fun hfit => (ahead_of_byte (by decide) hcolon hc₄).ended (by decide) yes.value hc₃ hfit
    obtain ⟨-, c₄', hcolon', h₄, hlength₄, -⟩ := retrace_byte h₃ (by decide) hcolon hc₄
    obtain ⟨no', d', hno', htracks, hlength⟩ := hn.lastOperand h₄ (by omega) hno hd hnoJoin
      fun hfit => ⟨(hend hfit).closes, (hend hfit).steps⟩
    have hnotEnd : endsExpression c₁'.rest = false := by
      obtain ⟨e, others, hothers⟩ : ∃ e others, c₂'.rest = e :: others :=
        List.exists_cons_of_length_pos (by omega)
      rw [byte_eq_ok hquestion', hothers]
      exact endsExpression_eq_false (by decide) fun heq => absurd heq (by decide)
    obtain ⟨e', hrun', hform'⟩ :=
      operation_conditional start' left' hseparator' hnotEnd hquestion' hyes' hcolon' hno'
    exact ⟨e', d', hrun', htracks, by omega, hform'⟩
  · simp only [Expr.joinable, Bool.and_eq_true] at hjoin
    obtain ⟨c₁', hseparator', h₁, hc₁', -, hlength₁, -⟩ := retrace_blank h hseparator hc₁ newlines
    obtain ⟨hnotEnd', hquestion', -, c₂', hop', h₂, hlength₂⟩ :=
      retrace_operator hmem h₁ hc₁' hnotEnd hc₂ fun hfit =>
        hn.head? hends hfit hc₂ (advances_pure ⟨⟩) hright hd
    obtain ⟨right', d', hright', htracks, hlength⟩ := hn.lastOperand h₂ (by omega) hright hd hjoin.2
      fun hfit => ⟨(hend hfit).closes, (hend hfit).steps⟩
    obtain ⟨e', hrun', hform'⟩ :=
      operation_binary start' left' hseparator' hnotEnd' hquestion' hop' hright'
    exact ⟨e', d', hrun', htracks, by omega, hform'⟩

/-! ### Expressions -/

theorem expr_eq_ok {newlines : Bool} {e : Expr} (h : expr nested newlines c = .ok (e, d)) :
    ∃ base parenthesized c₁ left c₂ span, term nested c = .ok ((base, parenthesized), c₁) ∧
      traversal nested (newlines || parenthesized) c ⟨base, span⟩ c₁ = .ok (left, c₂) ∧
      operation nested (newlines || parenthesized) c left c₂ = .ok (e, d) := by
  obtain ⟨_, _, hget, h⟩ := bind_eq_ok.mp h
  cases hget
  obtain ⟨⟨⟨base, parenthesized⟩, span⟩, c₁, hterm, h⟩ := bind_eq_ok.mp h
  obtain ⟨left, c₂, hleft, h⟩ := bind_eq_ok.mp h
  exact ⟨base, parenthesized, c₁, left, c₂, span, located_eq_ok hterm, hleft, h⟩

theorem expr_ok {newlines parenthesized : Bool} {base left e : Expr} {c₁ c₂ : Cursor}
    (hterm : term nested c = .ok ((base, parenthesized), c₁))
    (hleft : traversal nested (newlines || parenthesized) c ⟨base, c.pos, c₁.pos⟩ c₁ =
      .ok (left, c₂))
    (hrun : operation nested (newlines || parenthesized) c left c₂ = .ok (e, d)) :
    expr nested newlines c = .ok (e, d) :=
  bind_ok (get_eq c) (bind_ok (located_ok hterm) (bind_ok hleft hrun))

/-- An expression is read from both texts. -/
theorem retrace_expr (hn : NestedRetraces behind bound nested nested') (hends : Ends behind)
    (h : Tracks behind (.within (.code braces) outer) text c c') (hbound : c'.rest.length ≤ bound)
    {newlines : Bool} {e : Expr} (hrun : expr nested newlines c = .ok (e, d))
    (hd : d.rest = text' ++ behind) (hjoin : e.joinable = true)
    (hend : Fit (.within (.code braces) outer) text' →
      Ended e (squeeze (uncommented (.within (.code braces) outer) text'))) :
    ∃ e' d', expr nested' newlines c' = .ok (e', d') ∧
      Tracks behind (.within (.code braces) outer) text' d d' ∧
      d'.rest.length < c'.rest.length ∧ e'.form = e.form := by
  obtain ⟨base, parenthesized, c₁, left, c₂, span, hterm, hleft, hoperation⟩ := expr_eq_ok hrun
  obtain ⟨text₂, hc₂⟩ := (advances_operation hn.advances _ c left c₂ hoperation).inside hd
  obtain ⟨text₁, hc₁⟩ := (advances_traversal hn.advances _ c _ c₁ hleft).inside hc₂
  have hleftJoin : left.joinable = true := by
    rcases operation_eq_ok hoperation with ⟨rfl, -⟩ | ⟨_, _, _, _, _, _, _, _, _, _, _, _, _, rfl⟩ |
      ⟨_, _, _, _, _, _, _, _, _, _, rfl⟩
    · exact hjoin
    · simp only [Expr.joinable, Expr.joinable_withoutSpan, Expr.joinable_followedBy,
        Bool.and_eq_true] at hjoin
      exact hjoin.1.1
    · simp only [Expr.joinable, Expr.joinable_followedBy, Bool.and_eq_true] at hjoin
      exact hjoin.1
  have hbaseJoin : base.joinable = true := by
    rcases traversal_eq_ok hleft with ⟨_, _, _, _, _, _, _, _, _, rfl⟩ | ⟨rfl, -⟩
    · simp only [Expr.joinable, Expr.joinable_followedBy, Bool.and_eq_true] at hleftJoin
      exact hleftJoin.1
    · exact hleftJoin
  obtain ⟨base', c₁', hterm', h₁, hlength₁, hform⟩ :=
    retrace_term hn hends h hbound hterm hc₁ hbaseJoin
  have hstop : Fit (.within (.code braces) outer) text₂ →
      let tidy := squeeze (uncommented (.within (.code braces) outer) text₂)
      (endsExpression tidy = true ∨ opensStep tidy = false) ∧
        (left.endsInSteps = true → opensStep tidy = false) := by
    intro hfit
    rcases opensStep_operation hn hoperation hc₂ hd with ⟨rfl, rfl⟩ | hnext
    · obtain rfl := List.append_cancel_right (hc₂.symm.trans hd)
      exact ⟨(hend hfit).closes.imp id fun h => h.2.2, (hend hfit).steps⟩
    · exact ⟨Or.inr (hnext hfit), fun _ => hnext hfit⟩
  obtain ⟨left', c₂', hleft', h₂, hlength₂, hform₂⟩ :=
    @retrace_traversal _ _ _ _ _ _ _ _ _ _ _ hn hends h₁ (by omega) _ _ c' ⟨base, span⟩
      ⟨base', c'.pos, c₁'.pos⟩ _ hform hleft hc₂ hleftJoin hstop
  obtain ⟨e', d', hoperation', htracks, hlength, hform₃⟩ :=
    retrace_operation hn hends h₂ (by omega) c' hform₂ hoperation hd hjoin hend
  exact ⟨e', d', expr_ok hterm' hleft' hoperation', htracks, by omega, hform₃⟩

end

/-- Where an expression is read, an operand starts. -/
theorem starts_nestedTo {newlines : Bool} {c d : Cursor} {e : Expr} (depth : Nat)
    (h : (nestedTo depth).expr newlines c = .ok (e, d)) : ∃ b ∈ c.rest.head?, OperandByte b := by
  cases depth with
  | zero => cases h
  | succ depth =>
      obtain ⟨_, _, _, _, _, _, hterm, -⟩ := expr_eq_ok h
      exact term_starts hterm

/-- The parsers for all levels read the same from a text and from what is left of it. -/
theorem nestedRetraces_nestedTo {behind : Bytes} (hends : Ends behind) (depth bound : Nat) :
    NestedRetraces behind bound (nestedTo depth) (nestedTo bound) := by
  induction bound generalizing depth with
  | zero =>
      exact ⟨advances_nestedTo depth, fun _ _ _ _ => starts_nestedTo depth,
        fun _ _ _ _ _ _ _ _ _ _ hbound => absurd hbound (Nat.not_lt_zero _),
        fun _ _ _ _ _ _ _ _ hbound => absurd hbound (Nat.not_lt_zero _)⟩
  | succ bound ih =>
      refine ⟨advances_nestedTo depth, fun _ _ _ _ => starts_nestedTo depth, ?_, ?_⟩
      · intro newlines braces outer text text' c c' d e h hbound hrun hd hjoin hend
        cases depth with
        | zero => cases hrun
        | succ depth =>
            exact retrace_expr (ih depth) hends h (Nat.le_of_lt_succ hbound) hrun hd hjoin hend
      · intro outer text text' c c' d parts h hbound hrun hd hjoin hend
        cases depth with
        | zero => cases hrun
        | succ depth =>
            exact retrace_rawTemplate (ih depth) hends h
              (Nat.le_of_lt_succ hbound) hrun hd hjoin hend

end HclToJson.Grammar
