import HclToJson.Proofs.Requote.Call

namespace HclToJson.Grammar

open Comment Text HclToJson.Parser

section

variable {behind text text' : Bytes} {bound braces : Nat} {outer : List Frame} {c c' d : Cursor}
  {nested nested' : Nested} {b : UInt8}

/-! ### Parentheses and numbers -/

theorem paren_eq_ok {e : Expr} (h : paren nested c = .ok (e, d)) :
    ∃ c₁ c₂ inner layout, byte Byte.openParen c = .ok (⟨⟩, c₁) ∧
      within blankLines blankLines (nested.expr true) c₁ = .ok (inner, c₂) ∧
      byte Byte.closeParen c₂ = .ok (⟨⟩, d) ∧ e = .paren layout inner.value := by
  obtain ⟨_, _, hget, h⟩ := bind_eq_ok.mp h
  cases hget
  obtain ⟨_, c₁, hopen, h⟩ := bind_eq_ok.mp h
  obtain ⟨inner, c₂, hinner, h⟩ := bind_eq_ok.mp h
  obtain ⟨_, c₃, hclose, h⟩ := bind_eq_ok.mp h
  cases h
  exact ⟨c₁, c₂, inner, _, hopen, hinner, must_eq_ok.mp hclose, rfl⟩

theorem paren_ok {inner : Located Expr} {c₁ c₂ : Cursor}
    (hopen : byte Byte.openParen c = .ok (⟨⟩, c₁))
    (hinner : within blankLines blankLines (nested.expr true) c₁ = .ok (inner, c₂))
    (hclose : byte Byte.closeParen c₂ = .ok (⟨⟩, d)) :
    ∃ e, paren nested c = .ok (e, d) ∧ e.form = .paren :=
  ⟨.paren _ inner.value, bind_ok (get_eq c) (bind_ok hopen (bind_ok hinner
    (bind_ok (must_eq_ok.mpr hclose) rfl))), rfl⟩

theorem retrace_paren (hn : NestedRetraces behind bound nested nested')
    (h : Tracks behind (.within (.code braces) outer) text c c') (hbound : c'.rest.length ≤ bound)
    {e : Expr} (hrun : paren nested c = .ok (e, d)) (hd : d.rest = text' ++ behind)
    (hjoin : e.joinable = true) :
    ∃ e' d', paren nested' c' = .ok (e', d') ∧
      Tracks behind (.within (.code braces) outer) text' d d' ∧
      d'.rest.length < c'.rest.length ∧ e'.form = e.form := by
  obtain ⟨c₁, c₂, inner, layout, hopen, hinner, hclose, rfl⟩ := paren_eq_ok hrun
  obtain ⟨text₂, hc₂⟩ := (advances_byte _ c₂ hclose).inside hd
  obtain ⟨text₁, hc₁⟩ := (advances_within advances_blankLines (hn.advances.expr true)
    advances_blankLines c₁ hinner).inside hc₂
  obtain ⟨-, c₁', hopen', h₁, hlength₁, -⟩ := retrace_byte h (by decide) hopen hc₁
  obtain ⟨inner', c₂', hinner', h₂, -, hlength₂, -⟩ := hn.operand h₁ (by omega) hinner hc₂
    (by simpa [Expr.joinable] using hjoin) fun hfit =>
      (ahead_of_byte (by decide) hclose hd).ended (by decide) inner.value hc₂ hfit
  obtain ⟨-, d', hclose', htracks, hlength, -⟩ := retrace_byte h₂ (by decide) hclose hd
  obtain ⟨e', hrun', hform⟩ := paren_ok hopen' hinner' hclose'
  exact ⟨e', d', hrun', htracks, by omega, hform⟩

theorem numberLiteral_eq_ok {e : Expr} (h : numberLiteral c = .ok (e, d)) :
    ∃ value layout, number c = .ok (value, d) ∧ e = .number layout value := by
  obtain ⟨_, _, hget, h⟩ := bind_eq_ok.mp h
  cases hget
  obtain ⟨value, c₁, hvalue, h⟩ := bind_eq_ok.mp h
  cases h
  exact ⟨value, _, hvalue, rfl⟩

theorem numberLiteral_ok {value : Number} (h : number c = .ok (value, d)) :
    ∃ e, numberLiteral c = .ok (e, d) ∧ e.form = .literal :=
  ⟨.number _ value, bind_ok (get_eq c) (bind_ok h rfl), rfl⟩

theorem retrace_numberLiteral (hends : Ends behind)
    (h : Tracks behind (.within (.code braces) outer) text c c') (hsettled : Settled text)
    {e : Expr} (hrun : numberLiteral c = .ok (e, d)) (hd : d.rest = text' ++ behind) :
    ∃ e' d', numberLiteral c' = .ok (e', d') ∧
      Tracks behind (.within (.code braces) outer) text' d d' ∧
      d'.rest.length < c'.rest.length ∧ e'.form = e.form := by
  obtain ⟨value, layout, hvalue, rfl⟩ := numberLiteral_eq_ok hrun
  obtain ⟨d', hvalue', htracks, hlength⟩ := retrace_number hends h hsettled hvalue hd
  obtain ⟨e', hrun', hform⟩ := numberLiteral_ok hvalue'
  exact ⟨e', d', hrun', htracks, hlength, hform⟩

theorem heredoc_not_joinable {e : Expr} (h : heredoc nested c = .ok (e, d)) :
    e.joinable = false := by
  obtain ⟨_, _, -, h⟩ := bind_eq_ok.mp h
  obtain ⟨_, _, -, h⟩ := bind_eq_ok.mp h
  obtain ⟨marked, _, -, h⟩ := bind_eq_ok.mp h
  obtain ⟨_, _, -, h⟩ := bind_eq_ok.mp h
  obtain ⟨_, _, -, h⟩ := bind_eq_ok.mp h
  obtain ⟨parts, _, -, h⟩ := bind_eq_ok.mp h
  obtain ⟨_, _, -, h⟩ := bind_eq_ok.mp h
  obtain ⟨_, _, -, h⟩ := bind_eq_ok.mp h
  obtain ⟨_, _, -, h⟩ := bind_eq_ok.mp h
  obtain ⟨layout, _, -, h⟩ := bind_eq_ok.mp h
  cases h
  unfold heredocExpr
  repeat' split
  all_goals rfl

/-! ### Operands without an operator in front -/

/-- The parser for an operand that starts with a byte. -/
def primaryOf (nested : Nested) (b : UInt8) : Parser Expr :=
  if b = Byte.quote then string nested
  else if b = Byte.openBracket then array nested
  else if b = Byte.openBrace then object nested
  else if b = Byte.openParen then paren nested
  else if b = Byte.less then heredoc nested
  else if b = Byte.minus ∨ Byte.isDigit b then numberLiteral
  else if isIdentStart b then named nested
  else Parser.wrong

theorem identLength_pos {text : Bytes} (h : text.head? = some b) :
    0 < identLength text ↔ isIdentStart b = true := by
  obtain ⟨rest, rfl⟩ := List.head?_eq_some_iff.mp h
  rw [identLength]
  split
  · rename_i hb
    exact ⟨fun _ => hb, fun _ => by omega⟩
  · rename_i hb
    exact ⟨fun h => absurd h (Nat.lt_irrefl 0), fun h => absurd h hb⟩

theorem primary_eq (nested : Nested) (h : c.rest.head? = some b) :
    primary nested c = primaryOf nested b c := by
  rw [primary, bind_ok_eq (ahead_eq c), h]
  simp only [primaryOf, identLength_pos h]

theorem primary_starts {e : Expr} (h : primary nested c = .ok (e, d)) :
    ∃ b ∈ c.rest.head?, OperandByte b ∧ b ≠ Byte.exclamation := by
  cases hhead : c.rest.head? with
  | none =>
      rw [primary, bind_ok_eq (ahead_eq c), hhead] at h
      cases h
  | some b =>
      refine ⟨b, rfl, ?_⟩
      rw [primary_eq nested hhead] at h
      by_cases hb : OperandByte b ∧ b ≠ Byte.exclamation
      · exact hb
      · have hall : ∀ b : UInt8, ¬ (OperandByte b ∧ b ≠ Byte.exclamation) → b ≠ Byte.quote ∧
            b ≠ Byte.openBracket ∧ b ≠ Byte.openBrace ∧ b ≠ Byte.openParen ∧ b ≠ Byte.less ∧
            ¬ (b = Byte.minus ∨ Byte.isDigit b = true) ∧ ¬ isIdentStart b = true :=
          Byte.forall_of_lt (by decide +kernel)
        obtain ⟨h₁, h₂, h₃, h₄, h₅, h₆, h₇⟩ := hall b hb
        rw [primaryOf, if_neg h₁, if_neg h₂, if_neg h₃, if_neg h₄, if_neg h₅, if_neg h₆,
          if_neg h₇] at h
        cases h

/-- What one parser reads of the text the other one reads of the squeezed text. -/
def ReadsAlike (behind : Bytes) (spot : Spot) (text' : Bytes) (c c' d : Cursor) (e : Expr)
    (p p' : Parser Expr) : Prop :=
  p c = .ok (e, d) → ∃ e' d', p' c' = .ok (e', d') ∧ Tracks behind spot text' d d' ∧
    d'.rest.length < c'.rest.length ∧ e'.form = e.form

theorem ReadsAlike.ite {spot : Spot} {e : Expr} {p p' q q' : Parser Expr} {condition : Prop}
    [Decidable condition] (hp : ReadsAlike behind spot text' c c' d e p p')
    (hq : ReadsAlike behind spot text' c c' d e q q') :
    ReadsAlike behind spot text' c c' d e (if condition then p else q)
      (if condition then p' else q') := by
  split
  · exact hp
  · exact hq

theorem retrace_primary (hn : NestedRetraces behind bound nested nested') (hends : Ends behind)
    (h : Tracks behind (.within (.code braces) outer) text c c') (hbound : c'.rest.length ≤ bound)
    {e : Expr} (hrun : primary nested c = .ok (e, d)) (hd : d.rest = text' ++ behind)
    (hjoin : e.joinable = true) :
    ∃ e' d', primary nested' c' = .ok (e', d') ∧
      Tracks behind (.within (.code braces) outer) text' d d' ∧
      d'.rest.length < c'.rest.length ∧ e'.form = e.form := by
  obtain ⟨b, hhead, hoperand, -⟩ := primary_starts hrun
  obtain ⟨b', rest, rfl, -⟩ := h.operand hends ⟨b, hhead, hoperand⟩
  obtain rfl : b' = b := by simpa [h.rest] using hhead
  have hsettled := hoperand.settled rest
  rw [primary_eq nested' (h.head?_settled hsettled)]
  rw [primary_eq nested hhead] at hrun
  have halike : ReadsAlike behind (.within (.code braces) outer) text' c c' d e
      (primaryOf nested b') (primaryOf nested' b') :=
    .ite (fun hrun => retrace_string hn hends h hbound hrun hd hjoin)
      (.ite (fun hrun => retrace_array hn hends h hbound hrun hd hjoin)
        (.ite (fun hrun => retrace_object hn hends h hbound hrun hd hjoin)
          (.ite (fun hrun => retrace_paren hn h hbound hrun hd hjoin)
            (.ite (fun hrun => by simp [heredoc_not_joinable hrun] at hjoin)
              (.ite (fun hrun => retrace_numberLiteral hends h hsettled hrun hd)
                (.ite (fun hrun => retrace_named hn hends h hbound hrun hd hjoin)
                  fun hrun => by cases hrun))))))
  exact halike hrun

/-! ### Unary operators -/

/-- Reads the sign of a unary operator. -/
def unarySign : Parser UnaryOp :=
  Parser.either
    (do
      Parser.byte Byte.minus
      return UnaryOp.neg)
    (do
      Parser.byte Byte.exclamation
      return UnaryOp.not)

theorem unarySign_eq_ok {op : UnaryOp} (h : unarySign c = .ok (op, d)) :
    byte (unarySpelling op) c = .ok (⟨⟩, d) := by
  rcases either_eq_ok.mp h with hneg | ⟨-, hnot⟩
  · obtain ⟨_, c₁, hbyte, hrun⟩ := bind_eq_ok.mp hneg
    cases hrun
    exact hbyte
  · obtain ⟨_, c₁, hbyte, hrun⟩ := bind_eq_ok.mp hnot
    cases hrun
    exact hbyte

theorem unarySign_ok {op : UnaryOp} (h : byte (unarySpelling op) c = .ok (⟨⟩, d)) :
    unarySign c = .ok (op, d) := by
  cases op with
  | neg => exact either_ok (bind_ok h rfl)
  | not =>
      have hmiss : byte Byte.minus c = .error .miss := byte_miss fun hhead => by
        rw [byte_eq_ok h] at hhead
        exact absurd (Option.some.inj hhead) (by decide)
      exact (either_miss (bind_error hmiss)).trans (bind_ok h rfl)

theorem unaryOp_eq_ok {op : UnaryOp} (h : unaryOp c = .ok (op, d)) :
    ∃ c₁, number c = .error .miss ∧ byte (unarySpelling op) c = .ok (⟨⟩, c₁) ∧
      blank c₁ = .ok (⟨⟩, d) := by
  obtain ⟨_, _, hget, h⟩ := bind_eq_ok.mp h
  cases hget
  obtain ⟨literal, c₁, hliteral, h⟩ := bind_eq_ok.mp h
  obtain ⟨_, c₂, hrequire, h⟩ := bind_eq_ok.mp h
  rw [require_eq] at hrequire
  rcases optional_eq_ok.mp hliteral with ⟨value, rfl, -⟩ | ⟨rfl, rfl, hmiss⟩
  · cases hrequire
  · cases hrequire
    obtain ⟨_, _, hset, h⟩ := bind_eq_ok.mp h
    cases hset
    obtain ⟨op', c₃, hsign, h⟩ := bind_eq_ok.mp h
    obtain ⟨_, c₄, hblank, h⟩ := bind_eq_ok.mp h
    cases h
    exact ⟨c₃, hmiss, unarySign_eq_ok hsign, hblank⟩

theorem unaryOp_ok {op : UnaryOp} {c₁ : Cursor} (hnumber : number c = .error .miss)
    (hsign : byte (unarySpelling op) c = .ok (⟨⟩, c₁)) (hblank : blank c₁ = .ok (⟨⟩, d)) :
    unaryOp c = .ok (op, d) :=
  have hnone : require (none : Option Number).isNone c = .ok (⟨⟩, c) := rfl
  bind_ok (get_eq c) (bind_ok (optional_miss hnumber) (bind_ok hnone (bind_ok (set_eq c c)
    (bind_ok (p := unarySign) (unarySign_ok hsign) (bind_ok hblank rfl)))))

theorem number_miss_of_head (h : ∀ b ∈ c.rest.head?, b ≠ Byte.minus ∧ Byte.isDigit b = false) :
    number c = .error .miss := by
  have hflag : flag Byte.minus c = .ok (false, c) := flag_of_ne fun hhead => (h _ hhead).1 rfl
  have hdigits := digits_miss fun b hb => (h b hb).2
  simp only [number, bind_eq, hflag, Bool.false_eq_true, ↓reduceIte, unsigned, brokenExponent,
    get_eq, discard_eq, hdigits]

theorem unarySign_miss (h : ∀ b ∈ c.rest.head?, b ≠ Byte.minus ∧ b ≠ Byte.exclamation) :
    unarySign c = .error .miss := by
  have hneg : byte Byte.minus c = .error .miss := byte_miss fun hhead => (h _ hhead).1 rfl
  have hnot : byte Byte.exclamation c = .error .miss := byte_miss fun hhead => (h _ hhead).2 rfl
  rw [unarySign, either_miss (bind_error hneg), bind_error hnot]

/-- In front of an operand that has no operator none is read. -/
theorem unaryOp_miss (hends : Ends behind)
    (h : Tracks behind (.within (.code braces) outer) text c c')
    {e : Expr} (hrun : primary nested c = .ok (e, d)) (hd : d.rest = text' ++ behind) :
    unaryOp c' = .error .miss := by
  obtain ⟨b, hhead, hoperand, hnot⟩ := primary_starts hrun
  obtain ⟨b', rest, rfl, -⟩ := h.operand hends ⟨b, hhead, hoperand⟩
  obtain rfl : b' = b := by simpa [h.rest] using hhead
  have hsettled := hoperand.settled rest
  have hhead' := h.head?_settled hsettled
  by_cases hnumber : b' = Byte.minus ∨ Byte.isDigit b' = true
  · have hliteral : primaryOf nested b' = numberLiteral := by
      have hall : ∀ b : UInt8, b = Byte.minus ∨ Byte.isDigit b = true → b ≠ Byte.quote ∧
          b ≠ Byte.openBracket ∧ b ≠ Byte.openBrace ∧ b ≠ Byte.openParen ∧ b ≠ Byte.less :=
        Byte.forall_of_lt (by decide +kernel)
      obtain ⟨h₁, h₂, h₃, h₄, h₅⟩ := hall b' hnumber
      rw [primaryOf, if_neg h₁, if_neg h₂, if_neg h₃, if_neg h₄, if_neg h₅, if_pos hnumber]
    rw [primary_eq nested hhead, hliteral] at hrun
    obtain ⟨value, -, hvalue, -⟩ := numberLiteral_eq_ok hrun
    obtain ⟨d', hvalue', -⟩ := retrace_number hends h hsettled hvalue hd
    rw [unaryOp, bind_ok_eq (get_eq c'), bind_ok_eq (optional_ok hvalue')]
    rfl
  · obtain ⟨hminus, hdigit⟩ := not_or.mp hnumber
    have hmiss : number c' = .error .miss := number_miss_of_head fun x hx => by
      rw [hhead'] at hx
      obtain rfl : b' = x := by simpa using hx
      exact ⟨hminus, by simpa using hdigit⟩
    have hsign : unarySign c' = .error .miss := unarySign_miss fun x hx => by
      rw [hhead'] at hx
      obtain rfl : b' = x := by simpa using hx
      exact ⟨hminus, hnot⟩
    have hnone : require (none : Option Number).isNone c' = .ok (⟨⟩, c') := rfl
    rw [unaryOp, bind_ok_eq (get_eq c'), bind_ok_eq (optional_miss hmiss), bind_ok_eq hnone,
      bind_ok_eq (set_eq c' c')]
    exact bind_error (p := unarySign) hsign

theorem tokenByte_unarySpelling (op : UnaryOp) : TokenByte (unarySpelling op) := by
  cases op <;> decide

theorem operandByte_unarySpelling (op : UnaryOp) : OperandByte (unarySpelling op) := by
  cases op <;> decide

/-- Where operators and their operand start, an operand does. -/
theorem unaryOps_start {ops : List UnaryOp} (hrun : Chain unaryOp c ops d)
    (hstart : ∃ b ∈ d.rest.head?, OperandByte b) : ∃ b ∈ c.rest.head?, OperandByte b := by
  cases hrun with
  | nil => exact hstart
  | @cons _ _ _ op _ hop _ =>
      obtain ⟨c₁, -, hsign, -⟩ := unaryOp_eq_ok hop
      exact ⟨unarySpelling op, by rw [byte_eq_ok hsign]; rfl, operandByte_unarySpelling op⟩

/-- The operators in front of an operand are read from both texts. -/
theorem retrace_unaryOps (hends : Ends behind) {ops : List UnaryOp} (hrun : Chain unaryOp c ops d)
    (h : Tracks behind (.within (.code braces) outer) text c c') {e : Expr} {c₁ : Cursor}
    (hprimary : primary nested d = .ok (e, c₁)) (hd : d.rest = text' ++ behind)
    (hc₁ : ∃ text₁, c₁.rest = text₁ ++ behind) :
    ∃ d', Repeats unaryOp c' ops d' ∧ Tracks behind (.within (.code braces) outer) text' d d' ∧
      d'.rest.length ≤ c'.rest.length := by
  have hstart : ∃ b ∈ d.rest.head?, OperandByte b := by
    obtain ⟨b, hb, hoperand, -⟩ := primary_starts hprimary
    exact ⟨b, hb, hoperand⟩
  obtain ⟨text₁, hc₁⟩ := hc₁
  induction hrun generalizing text c' with
  | nil c =>
      obtain rfl := List.append_cancel_right (h.rest.symm.trans hd)
      exact ⟨c', .stop (unaryOp_miss hends h hprimary hc₁), h, Nat.le_refl _⟩
  | @cons c c₂ d op ops hop hothers ih =>
      obtain ⟨c₃, hnumber, hsign, hblank⟩ := unaryOp_eq_ok hop
      obtain ⟨text₂, hc₂⟩ := (hothers.reaches advances_unaryOp).inside hd
      obtain ⟨text₃, hc₃⟩ := (advances_blank c₃ hblank).inside hc₂
      obtain rfl := split_byte h.rest (byte_eq_ok hsign) hc₃
      have hsettled : Settled (unarySpelling op :: text₃) :=
        (operandByte_unarySpelling op).settled text₃
      obtain ⟨-, c₃', hsign', h₃, hlength₃, -⟩ :=
        retrace_byte h (tokenByte_unarySpelling op) hsign hc₃
      obtain ⟨c₂', hblank', h₂, -, -, hlength₂, -⟩ := retrace_blank h₃ hblank hc₂ false
      have hnumber' : number c' = .error .miss := by
        refine number_miss hends h hsettled hnumber fun c₄ c₅ hflag hblank₄ => ?_
        have hsame : c₄.rest = c₃.rest := by
          rcases flag_eq_ok hflag with ⟨-, hrest⟩ | ⟨hfalse, -⟩
          · rw [byte_eq_ok hsign] at hrest
            exact (List.cons.inj hrest).2.symm
          · cases hfalse
        have hc₅ : c₅.rest = text₂ ++ behind := by
          rw [blank, separator_eq] at hblank hblank₄
          rw [← hc₂]
          cases hblank
          cases hblank₄
          rw [hsame]
        obtain ⟨b, rest, rfl, hb⟩ := h₂.operand hends (unaryOps_start hothers hstart)
        exact ⟨b :: rest, hc₅, hb.settled rest⟩
      obtain ⟨d', hothers', htracks, hlength⟩ := ih h₂ hprimary hd hstart
      exact ⟨d', .next (unaryOp_ok hnumber' hsign' hblank') (by omega) hothers', htracks, by omega⟩

/-- The operand that operators in front of it make of one. -/
def unaryExpr (layout : Layout) (ops : List UnaryOp) (operand : Expr) : Expr :=
  match ops.getLast? with
  | none => operand
  | some op => .unary layout op operand

theorem joinable_unaryExpr (layout : Layout) (ops : List UnaryOp) (operand : Expr) :
    (unaryExpr layout ops operand).joinable = operand.joinable := by
  unfold unaryExpr
  split <;> rfl

theorem form_unaryExpr {operand operand' : Expr} (h : operand'.form = operand.form)
    (layout layout' : Layout) (ops : List UnaryOp) :
    (unaryExpr layout' ops operand').form = (unaryExpr layout ops operand).form := by
  unfold unaryExpr
  split
  · exact h
  · have hliteral : operand'.literal?.isSome = operand.literal?.isSome := by
      rw [Bool.eq_iff_iff, ← Expr.form_eq_literal, ← Expr.form_eq_literal, h]
    simp only [Expr.form, hliteral]

/-- The operand that operators in front of it make of one, and whether it is in parentheses. -/
def termOf (start : Cursor) (ops : List UnaryOp) (operand : Located Expr) : Parser (Expr × Bool) :=
  let parenthesized :=
    match operand.value with
    | .paren .. => true
    | _ => false
  match ops.getLast? with
  | none => return (operand.value, parenthesized)
  | some op =>
      let layout : Layout :=
        { span := some ⟨start.pos, operand.span.stop⟩
          gaps := [[unarySpelling op], []]
          before := (start.rest.take (operand.span.start - start.pos)).drop 1 }
      return (.unary layout op operand.value, parenthesized)

theorem termOf_eq (start : Cursor) (ops : List UnaryOp) (operand : Located Expr) (c : Cursor) :
    ∃ layout, termOf start ops operand c =
      .ok ((unaryExpr layout ops operand.value, decide (operand.value.form = .paren)), c) := by
  have hparen : (match operand.value with
      | .paren .. => true
      | _ => false) = decide (operand.value.form = .paren) := by
    cases operand.value with
    | unary layout op inner =>
        simp only [Expr.form]
        split <;> rfl
    | _ => rfl
  simp only [termOf, unaryExpr, hparen]
  cases ops.getLast? with
  | none => exact ⟨⟨none, [], [], []⟩, rfl⟩
  | some op => exact ⟨_, rfl⟩

theorem term_eq (nested : Nested) :
    term nested = (do
      let start ← get
      let ops ← Parser.many unaryOp
      let operand ← Parser.located (primary nested)
      termOf start ops operand) :=
  rfl

theorem term_eq_ok {result : Expr × Bool} (h : term nested c = .ok (result, d)) :
    ∃ ops c₁ operand layout, Chain unaryOp c ops c₁ ∧ primary nested c₁ = .ok (operand, d) ∧
      result = (unaryExpr layout ops operand, decide (operand.form = .paren)) := by
  rw [term_eq] at h
  obtain ⟨_, _, hget, h⟩ := bind_eq_ok.mp h
  cases hget
  obtain ⟨ops, c₁, hops, h⟩ := bind_eq_ok.mp h
  obtain ⟨operand, c₂, hoperand, h⟩ := bind_eq_ok.mp h
  obtain ⟨layout, hterm⟩ := termOf_eq c ops operand c₂
  rw [hterm] at h
  cases h
  exact ⟨ops, c₁, operand.value, layout, chain_of_many hops, located_eq_ok hoperand, rfl⟩

theorem term_ok {ops : List UnaryOp} {c₁ : Cursor} {operand : Expr}
    (hops : Repeats unaryOp c ops c₁) (hoperand : primary nested c₁ = .ok (operand, d)) :
    ∃ layout, term nested c =
      .ok ((unaryExpr layout ops operand, decide (operand.form = .paren)), d) := by
  obtain ⟨layout, hterm⟩ := termOf_eq c ops ⟨operand, c₁.pos, d.pos⟩ d
  rw [term_eq]
  exact ⟨layout, bind_ok (get_eq c) (bind_ok hops.many (bind_ok (located_ok hoperand) hterm))⟩

theorem term_starts {result : Expr × Bool} (h : term nested c = .ok (result, d)) :
    ∃ b ∈ c.rest.head?, OperandByte b := by
  obtain ⟨ops, c₁, operand, layout, hops, hoperand, -⟩ := term_eq_ok h
  obtain ⟨b, hb, hstart, -⟩ := primary_starts hoperand
  exact unaryOps_start hops ⟨b, hb, hstart⟩

/-- An operand, with its operators, is read from both texts. -/
theorem retrace_term (hn : NestedRetraces behind bound nested nested') (hends : Ends behind)
    (h : Tracks behind (.within (.code braces) outer) text c c') (hbound : c'.rest.length ≤ bound)
    {e : Expr} {parenthesized : Bool} (hrun : term nested c = .ok ((e, parenthesized), d))
    (hd : d.rest = text' ++ behind) (hjoin : e.joinable = true) :
    ∃ e' d', term nested' c' = .ok ((e', parenthesized), d') ∧
      Tracks behind (.within (.code braces) outer) text' d d' ∧
      d'.rest.length < c'.rest.length ∧ e'.form = e.form := by
  obtain ⟨ops, c₁, operand, layout, hops, hoperand, hresult⟩ := term_eq_ok hrun
  obtain ⟨rfl, rfl⟩ := Prod.mk.inj hresult
  rw [joinable_unaryExpr] at hjoin
  obtain ⟨text₁, hc₁⟩ := (advances_primary hn.advances c₁ hoperand).inside hd
  obtain ⟨c₁', hops', h₁, hlength₁⟩ := retrace_unaryOps hends hops h hoperand hc₁ ⟨text', hd⟩
  obtain ⟨operand', d', hoperand', htracks, hlength, hform⟩ :=
    retrace_primary hn hends h₁ (by omega) hoperand hd hjoin
  obtain ⟨layout', hrun'⟩ := term_ok hops' hoperand'
  rw [hform] at hrun'
  exact ⟨_, d', hrun', htracks, by omega, form_unaryExpr hform layout layout' ops⟩

end

end HclToJson.Grammar
