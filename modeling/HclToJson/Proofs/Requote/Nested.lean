import HclToJson.Proofs.Grammar.Behind
import HclToJson.Proofs.Requote.Joined
import HclToJson.Proofs.Requote.Literal

namespace HclToJson.Grammar

open Comment Text HclToJson.Parser

/-- A byte that an expression may start with. -/
def OperandByte (b : UInt8) : Prop :=
  b ∈ [Byte.quote, Byte.openBracket, Byte.openBrace, Byte.openParen, Byte.less, Byte.minus,
    Byte.exclamation] ∨ Byte.isDigit b = true ∨ isIdentStart b = true

instance decidableOperandByte (b : UInt8) : Decidable (OperandByte b) :=
  inferInstanceAs (Decidable (_ ∨ _))

/-- An expression does not go on with a text. -/
structure Ended (e : Expr) (tidy : Bytes) : Prop where
  closes : Finishes tidy
  steps : e.endsInSteps = true → opensStep tidy = false

theorem NoOperator.ended {tidy : Bytes} (h : NoOperator tidy) (e : Expr) : Ended e tidy :=
  ⟨h.finishes, fun _ => h.step⟩

/-- An ellipsis ends all but a traversal. -/
theorem ended_of_ellipsis {e : Expr} (h : e.endsInSteps = false) (rest : Bytes) :
    Ended e (Byte.dot :: Byte.dot :: Byte.dot :: rest) :=
  ⟨Or.inl (by simp [endsExpression, List.isPrefixOf]), fun hsteps => by simp [h] at hsteps⟩

/-- A template does not go on: there stands a tag that ends a part of a directive. -/
def BodyEnded (behind : Bytes) (c : Cursor) : Prop :=
  ∃ mark c₁ rest, openTag c = .ok (mark, c₁) ∧ c₁.rest = 0x65 :: rest ++ behind

/-- What the parsers for the parts of an expression make of a text and of the same text without
comments and with single spaces, up to a length of that. -/
structure NestedRetraces (behind : Bytes) (bound : Nat) (nested nested' : Nested) : Prop where
  advances : nested.Advances
  starts : ∀ ⦃newlines c e d⦄, nested.expr newlines c = .ok (e, d) →
    ∃ b ∈ c.rest.head?, OperandByte b
  expr : ∀ ⦃newlines braces outer text text' c c' d e⦄,
    Tracks behind (.within (.code braces) outer) text c c' → c'.rest.length < bound →
    nested.expr newlines c = .ok (e, d) → d.rest = text' ++ behind → e.joinable = true →
    (Fit (.within (.code braces) outer) text' →
      Ended e (squeeze (uncommented (.within (.code braces) outer) text'))) →
    ∃ e' d', nested'.expr newlines c' = .ok (e', d') ∧
      Tracks behind (.within (.code braces) outer) text' d d' ∧
      d'.rest.length < c'.rest.length ∧ e'.form = e.form
  body : ∀ ⦃outer text text' c c' d parts⦄, TracksText behind .body outer text c c' →
    c'.rest.length < bound → nested.body c = .ok (parts, d) → d.rest = text' ++ behind →
    Expr.joinableElements (values parts) = true → BodyEnded behind d →
    ∃ parts' d', nested'.body c' = .ok (parts', d') ∧ TracksText behind .body outer text' d d' ∧
      d'.rest.length ≤ c'.rest.length

section

variable {behind text text' : Bytes} {braces bound : Nat} {outer : List Frame} {c c' d : Cursor}
  {b : UInt8}

theorem OperandByte.settled (hb : OperandByte b) (rest : Bytes) : Settled (b :: rest) := by
  have hall : ∀ b : UInt8, OperandByte b →
      Byte.isBlank b = false ∧ b ≠ Byte.hash ∧ b ≠ Byte.slash :=
    Byte.forall_of_lt (by decide +kernel)
  obtain ⟨hblank, hhash, hslash⟩ := hall b hb
  intro d hd
  obtain rfl : b = d := by simpa using hd
  exact ⟨hblank, fun hopens => hopens.eq_hash_or_slash.elim hhash hslash⟩

theorem OperandByte.not_ends : ∀ b ∈ valueEnds, ¬ OperandByte b :=
  forall_mem_of_all rfl

/-- Where an expression starts, an operand does. -/
theorem Tracks.operand (hends : Ends behind)
    (h : Tracks behind (.within (.code braces) outer) text c c')
    (hstart : ∃ b ∈ c.rest.head?, OperandByte b) : ∃ b rest, text = b :: rest ∧ OperandByte b := by
  rw [h.rest] at hstart
  exact hends.head_mem OperandByte.not_ends hstart

theorem head?_squeeze (h : Fit (.within (.code braces) outer) text) (hsettled : Settled text) :
    (squeeze (uncommented (.within (.code braces) outer) text)).head? = text.head? := by
  cases text with
  | nil => simp [uncommented]
  | cons b rest =>
      obtain ⟨hblank, hopens⟩ := hsettled b rfl
      rw [(h.passes_code hopens).uncommented, List.singleton_append, squeeze_inked (h.inked hblank)]
      rfl

theorem squeeze_token (h : Fit (.within (.code braces) outer) (b :: text)) (hb : TokenByte b) :
    squeeze (uncommented (.within (.code braces) outer) (b :: text)) =
      b :: squeezeBehind (uncommented (.within (.code braces) outer) text) := by
  rw [(h.passes_flat hb.flat.1).uncommented, List.singleton_append,
    squeeze_inked (whiteLength_token ⟨hb.1, hb.2.1⟩ _)]

theorem settled_of_not_mem (hb : Byte.isBlank b = false ∧ b ≠ Byte.hash ∧ b ≠ Byte.slash)
    (rest : Bytes) : Settled (b :: rest) := by
  intro d hd
  obtain rfl : b = d := by simpa using hd
  exact ⟨hb.1, fun hopens => hopens.eq_hash_or_slash.elim hb.2.1 hb.2.2⟩

/-! ### Expressions between separators -/

theorem within_eq_ok {front back : Parser Unit} {p : Parser Expr} {v : Located Expr}
    (h : within front back p c = .ok (v, d)) :
    ∃ c₁ c₂ e before after, front c = .ok (⟨⟩, c₁) ∧ p c₁ = .ok (e, c₂) ∧
      back c₂ = .ok (⟨⟩, d) ∧ v = ⟨e.between before after, c.pos, d.pos⟩ := by
  rw [within, located_eq] at h
  split at h
  · rename_i e d' hrun
    cases h
    obtain ⟨before, c₁, hfront, hrun⟩ := bind_eq_ok.mp hrun
    obtain ⟨inner, c₂, hp, hrun⟩ := bind_eq_ok.mp hrun
    obtain ⟨after, c₃, hback, hrun⟩ := bind_eq_ok.mp hrun
    cases hrun
    rw [spelling_eq] at hfront hback
    split at hfront
    · rename_i hfront'
      cases hfront
      split at hback
      · rename_i hback'
        cases hback
        exact ⟨_, _, inner, _, _, hfront', hp, hback', rfl⟩
      · cases hback
    · cases hfront
  · cases h

theorem within_ok {front back : Parser Unit} {p : Parser Expr} {e : Expr} {c₁ c₂ : Cursor}
    (hfront : front c = .ok (⟨⟩, c₁)) (hp : p c₁ = .ok (e, c₂)) (hback : back c₂ = .ok (⟨⟩, d)) :
    ∃ before after, within front back p c = .ok (⟨e.between before after, c.pos, d.pos⟩, d) := by
  refine ⟨c.rest.take (c₁.pos - c.pos), c₂.rest.take (d.pos - c₂.pos), ?_⟩
  simp only [within, located_eq, bind_eq, spelling_eq, hfront, hp, hback, pure_eq]

variable {nested nested' : Nested} {newlines front back : Bool} {v : Located Expr}

theorem NestedRetraces.operand (hn : NestedRetraces behind bound nested nested')
    (h : Tracks behind (.within (.code braces) outer) text c c') (hbound : c'.rest.length < bound)
    (hrun : within (separator front) (separator back) (nested.expr newlines) c = .ok (v, d))
    (hd : d.rest = text' ++ behind) (hjoin : v.value.joinable = true)
    (hend : Fit (.within (.code braces) outer) text' →
      Ended v.value (squeeze (uncommented (.within (.code braces) outer) text'))) :
    ∃ v' d', within (separator front) (separator back) (nested'.expr newlines) c' = .ok (v', d') ∧
      Tracks behind (.within (.code braces) outer) text' d d' ∧
      d'.rest = squeeze (uncommented (.within (.code braces) outer) text') ∧
      d'.rest.length < c'.rest.length ∧ v'.value.form = v.value.form := by
  obtain ⟨c₁, c₂, e, before, after, hfront, hp, hback, rfl⟩ := within_eq_ok hrun
  obtain ⟨text₂, hc₂⟩ := (advances_separator back c₂ hback).inside hd
  obtain ⟨text₁, hc₁⟩ := (hn.advances.expr newlines c₁ hp).inside hc₂
  obtain ⟨c₁', hfront', h₁, -, -, hlength₁, -⟩ := retrace_blank h hfront hc₁ front
  have hend' : Fit (.within (.code braces) outer) text₂ →
      Ended e (squeeze (uncommented (.within (.code braces) outer) text₂)) := by
    intro hfit₂
    obtain ⟨hfit, hsame, -⟩ := retrace_separator hfit₂ hc₂ hback hd
    rw [hsame]
    exact ⟨(hend hfit).closes, fun hsteps => (hend hfit).steps (by simpa using hsteps)⟩
  obtain ⟨e', c₂', hp', h₂, hlength₂, hform⟩ := hn.expr h₁ (by omega) hp hc₂
    (by simpa using hjoin) hend'
  obtain ⟨d', hback', htracks, hd', -, hlength, -⟩ := retrace_blank h₂ hback hd back
  obtain ⟨before', after', hrun'⟩ := within_ok hfront' hp' hback'
  exact ⟨_, d', hrun', htracks, hd', by omega, by simpa using hform⟩

/-- An expression between separators starts with an operand, for both readers. -/
theorem NestedRetraces.head? (hn : NestedRetraces behind bound nested nested') (hends : Ends behind)
    (h : Fit (.within (.code braces) outer) text) (hc : c.rest = text ++ behind)
    {last : Parser Unit}
    (hlast : Advances last)
    (hrun : within (separator front) last (nested.expr newlines) c = .ok (v, d))
    (hd : d.rest = text' ++ behind) :
    ∃ b ∈ (squeeze (uncommented (.within (.code braces) outer) text)).head?, OperandByte b := by
  have htracks : Tracks behind (.within (.code braces) outer) text c
      ⟨0, squeeze (uncommented (.within (.code braces) outer) text)⟩ := ⟨hc, h, Or.inl rfl⟩
  obtain ⟨c₁, c₂, e, before, after, hfront, hp, hback, rfl⟩ := within_eq_ok hrun
  obtain ⟨text₂, hc₂⟩ := (hlast c₂ hback).inside hd
  obtain ⟨text₁, hc₁⟩ := (hn.advances.expr newlines c₁ hp).inside hc₂
  obtain ⟨c₁', -, h₁, -, hsame, -⟩ := retrace_blank htracks hfront hc₁ front
  obtain ⟨b, rest, rfl, hb⟩ := h₁.operand hends (hn.starts hp)
  rw [hsame, head?_squeeze h₁.fit (hb.settled rest)]
  exact ⟨b, rfl, hb⟩

/-- The last operand of an expression, with nothing read behind it. -/
theorem NestedRetraces.lastOperand (hn : NestedRetraces behind bound nested nested')
    (h : Tracks behind (.within (.code braces) outer) text c c') (hbound : c'.rest.length < bound)
    (hrun : within (separator front) (pure ()) (nested.expr newlines) c = .ok (v, d))
    (hd : d.rest = text' ++ behind) (hjoin : v.value.joinable = true)
    (hend : Fit (.within (.code braces) outer) text' →
      Ended v.value (squeeze (uncommented (.within (.code braces) outer) text'))) :
    ∃ v' d', within (separator front) (pure ()) (nested'.expr newlines) c' = .ok (v', d') ∧
      Tracks behind (.within (.code braces) outer) text' d d' ∧
      d'.rest.length < c'.rest.length := by
  obtain ⟨c₁, c₂, e, before, after, hfront, hp, hback, rfl⟩ := within_eq_ok hrun
  cases hback
  obtain ⟨text₁, hc₁⟩ := (hn.advances.expr newlines c₁ hp).inside hd
  obtain ⟨c₁', hfront', h₁, -, -, hlength₁, -⟩ := retrace_blank h hfront hc₁ front
  have hend' : Fit (.within (.code braces) outer) text' →
      Ended e (squeeze (uncommented (.within (.code braces) outer) text')) := fun hfit =>
    ⟨(hend hfit).closes, fun hsteps => (hend hfit).steps (by simpa using hsteps)⟩
  obtain ⟨e', d', hp', htracks, hlength, -⟩ := hn.expr h₁ (by omega) hp hd
    (by simpa using hjoin) hend'
  have hback' : (pure () : Parser Unit) d' = .ok (⟨⟩, d') := rfl
  obtain ⟨before', after', hrun'⟩ := within_ok hfront' hp' hback'
  exact ⟨_, d', hrun', htracks, by omega⟩

/-! ### Braces -/

theorem split_byte (h : c.rest = text ++ behind) (hrest : c.rest = b :: d.rest)
    (hd : d.rest = text' ++ behind) : text = b :: text' := by
  rw [h, hd, ← List.cons_append] at hrest
  exact List.append_cancel_right hrest

theorem retrace_openBrace {value : Unit}
    (h : Tracks behind (.within (.code braces) outer) text c c')
    (hrun : byte Byte.openBrace c = .ok (value, d)) (hd : d.rest = text' ++ behind) :
    text = Byte.openBrace :: text' ∧ ∃ d', byte Byte.openBrace c' = .ok (⟨⟩, d') ∧
      Tracks behind (.within (.code (braces + 1)) outer) text' d d' ∧
      d'.rest.length < c'.rest.length := by
  obtain rfl := split_byte h.rest (byte_eq_ok hrun) hd
  have hopens : ¬ Opens Byte.openBrace text' := fun hopens =>
    hopens.eq_hash_or_slash.elim (by decide) (by decide)
  have hpasses := h.fit.passes_code hopens
  have hnext : (Spot.within (.code braces) outer).next Byte.openBrace text' =
      .within (.code (braces + 1)) outer := by
    rw [Spot.next_code hopens, if_neg (by decide), if_pos rfl]
  rw [hnext] at hpasses
  have hrest := h.cons hpasses (whiteLength_token (by decide) _)
  obtain ⟨d', hbyte, hd'⟩ := byte_ok hrest
  refine ⟨rfl, d', hbyte, ⟨hd, hpasses.fit, Or.inr hd'⟩, ?_⟩
  rw [hrest, hd', List.length_cons]
  exact Nat.lt_succ_self _

theorem retrace_closeBrace {value : Unit}
    (h : Tracks behind (.within (.code braces) outer) text c c')
    (hrun : byte Byte.closeBrace c = .ok (value, d)) (hd : d.rest = text' ++ behind) :
    text = Byte.closeBrace :: text' ∧ ∃ d', byte Byte.closeBrace c' = .ok (⟨⟩, d') ∧
      Fit (.close braces outer) text' ∧
      d'.rest = squeezeBehind (uncommented (.close braces outer) text') ∧
      d'.rest.length < c'.rest.length := by
  obtain rfl := split_byte h.rest (byte_eq_ok hrun) hd
  have hopens : ¬ Opens Byte.closeBrace text' := fun hopens =>
    hopens.eq_hash_or_slash.elim (by decide) (by decide)
  have hpasses := h.fit.passes_code hopens
  have hnext : (Spot.within (.code braces) outer).next Byte.closeBrace text' =
      .close braces outer := by
    rw [Spot.next_code hopens, if_neg (by decide), if_neg (by decide), if_pos rfl]
  rw [hnext] at hpasses
  have hrest := h.cons hpasses (whiteLength_token (by decide) _)
  obtain ⟨d', hbyte, hd'⟩ := byte_ok hrest
  refine ⟨rfl, d', hbyte, hpasses.fit, hd', ?_⟩
  rw [hrest, hd', List.length_cons]
  exact Nat.lt_succ_self _

/-- In front of a token the squeezed text has at most a space. -/
theorem Tracks.head?_tidy (h : Tracks behind (.within (.code braces) outer) text c c')
    (hb : (squeeze (uncommented (.within (.code braces) outer) text)).head? = some b) :
    c'.rest.head? = some Byte.space ∨ c'.rest.head? = some b := by
  rcases h.tidy with htidy | htidy
  · rw [htidy]
    exact Or.inr hb
  · rcases squeezeBehind_cases (uncommented (.within (.code braces) outer) text) with hsame | hsame
    · rw [htidy, hsame]
      exact Or.inr hb
    · rw [htidy, hsame]
      exact Or.inl rfl

end

end HclToJson.Grammar
