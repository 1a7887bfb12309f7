import HclToJson.Proofs.Grammar.Advance

namespace HclToJson.Grammar

open HclToJson.Parser

/-- What a parser gives stands from a position on, up to where the text is read. -/
def PlacesFrom (start : Nat) (p : Parser Expr) : Prop :=
  ∀ ⦃c e d⦄, p c = .ok (e, d) → e.span = some ⟨start, d.pos⟩

/-- What a parser gives stands where it is read. -/
def Places (p : Parser Expr) : Prop :=
  ∀ ⦃c e d⦄, p c = .ok (e, d) → e.span = some ⟨c.pos, d.pos⟩

section

variable {α : Type} {start : Nat} {p q : Parser Expr}

theorem PlacesFrom.bind (first : Parser α) {f : α → Parser Expr} (h : ∀ v, PlacesFrom start (f v)) :
    PlacesFrom start (first >>= f) := by
  intro c e d hrun
  obtain ⟨value, c', -, hrun⟩ := bind_eq_ok.mp hrun
  exact h value hrun

theorem PlacesFrom.ite {condition : Prop} [Decidable condition] (hp : PlacesFrom start p)
    (hq : PlacesFrom start q) : PlacesFrom start (if condition then p else q) := by
  split
  · exact hp
  · exact hq

theorem placesFrom_layout {start : Cursor} (children : List Span) {make : Layout → Expr}
    (hmake : ∀ layout, (make layout).span = layout.span) :
    PlacesFrom start.pos (do return make (← layoutFrom start children)) := by
  intro c e d hrun
  cases hrun
  exact hmake _

theorem Places.bind_get {f : Cursor → Parser Expr} (h : ∀ c, PlacesFrom c.pos (f c)) :
    Places (get >>= f) := by
  intro c e d hrun
  obtain ⟨start, c', hstart, hrun⟩ := bind_eq_ok.mp hrun
  cases hstart
  exact h c hrun

theorem Places.bind_ahead {f : Bytes → Parser Expr} (h : ∀ text, Places (f text)) :
    Places (ahead >>= f) := by
  intro c e d hrun
  obtain ⟨text, c', htext, hrun⟩ := bind_eq_ok.mp hrun
  cases htext
  exact h c.rest hrun

theorem Places.ite {condition : Prop} [Decidable condition] (hp : Places p) (hq : Places q) :
    Places (if condition then p else q) := by
  split
  · exact hp
  · exact hq

theorem span_located {p : Parser α} {c d : Cursor} {value : Located α}
    (h : located p c = .ok (value, d)) : value.span = ⟨c.pos, d.pos⟩ := by
  obtain ⟨_, _, hget, h⟩ := bind_eq_ok.mp h
  cases hget
  obtain ⟨result, c', hresult, h⟩ := bind_eq_ok.mp h
  cases h
  rfl

theorem places_wrong : Places (wrong : Parser Expr) := by
  intro c e d h
  cases h

end

variable (nested : Nested)

theorem places_quotedTemplate : Places (quotedTemplate nested) :=
  .bind_get fun _ => .bind _ fun _ => .bind _ fun _ => .bind _ fun _ =>
    placesFrom_layout _ fun _ => rfl

theorem span_heredocExpr (layout : Layout) (marked : Bool) (parts : Template) :
    (heredocExpr layout marked parts).span = layout.span := by
  unfold heredocExpr
  split
  · split <;> rfl
  · rfl

theorem places_heredoc : Places (heredoc nested) :=
  .bind_get fun _ => .bind _ fun _ => .bind _ fun _ => .bind _ fun _ => .bind _ fun _ =>
    .bind _ fun _ => .bind _ fun _ => .bind _ fun _ => .bind _ fun _ =>
      placesFrom_layout _ fun _ => span_heredocExpr _ _ _

theorem places_string : Places (string nested) := by
  intro c e d hrun
  obtain ⟨_, _, hget, hrun⟩ := bind_eq_ok.mp hrun
  cases hget
  obtain ⟨text, c', htext, hrun⟩ := bind_eq_ok.mp hrun
  rcases optional_eq_ok.mp htext with ⟨text, rfl, -⟩ | ⟨rfl, rfl, -⟩
  · exact placesFrom_layout [] (fun _ => rfl) hrun
  · exact places_quotedTemplate nested hrun

theorem placesFrom_comprehension (start : Cursor) (braces : Bool) :
    PlacesFrom start.pos (comprehension nested start braces) :=
  .bind _ fun _ => .bind _ fun _ => .bind _ fun _ => .bind _ fun _ => .bind _ fun _ =>
    .bind _ fun _ => .bind _ fun _ => .bind _ fun _ => .bind _ fun _ => .bind _ fun _ =>
      .bind _ fun _ => .bind _ fun _ => placesFrom_layout _ fun _ => rfl

theorem places_array : Places (array nested) := by
  refine .bind_get fun start => .bind _ fun _ => .bind _ fun loops => ?_
  cases loops with
  | true => exact placesFrom_comprehension nested start false
  | false =>
      refine .bind _ fun items => ?_
      have hend : PlacesFrom start.pos (do
          blankLines
          Parser.must (Parser.byte Byte.closeBracket)
          return Expr.array (← layoutFrom start (spans items)) (items.map (·.value))) :=
        .bind _ fun _ => .bind _ fun _ => placesFrom_layout _ fun _ => rfl
      exact .ite (.bind _ fun _ => hend) hend

theorem places_object : Places (object nested) := by
  refine .bind_get fun start => .bind _ fun _ => .bind _ fun loops => ?_
  cases loops with
  | true => exact placesFrom_comprehension nested start true
  | false =>
      exact .bind _ fun _ => .bind _ fun _ => .bind _ fun _ => placesFrom_layout _ fun _ => rfl

theorem places_numberLiteral : Places numberLiteral :=
  .bind_get fun _ => .bind _ fun _ => placesFrom_layout _ fun _ => rfl

theorem places_paren : Places (paren nested) :=
  .bind_get fun _ => .bind _ fun _ => .bind _ fun _ => .bind _ fun _ =>
    placesFrom_layout _ fun _ => rfl

theorem places_named : Places (named nested) := by
  refine .bind_get fun start => .bind _ fun name => .bind _ fun opening => .ite
    (.bind _ fun _ => placesFrom_layout _ fun _ => rfl) fun c e d hrun => ?_
  obtain ⟨layout, c', hlayout, hrun⟩ := bind_eq_ok.mp hrun
  cases hlayout
  split at hrun
  · cases hrun
    rfl
  · split at hrun
    · cases hrun
      rfl
    · split at hrun <;>
        (cases hrun
         rfl)

theorem places_primary : Places (primary nested) := by
  refine .bind_ahead fun text => ?_
  split
  · intro c e d h
    cases h
  · exact .ite (places_string nested) (.ite (places_array nested) (.ite (places_object nested)
      (.ite (places_paren nested) (.ite (places_heredoc nested) (.ite places_numberLiteral
        (.ite (places_named nested) places_wrong))))))

/-- An operand stands where it is read, with the operators in front of it. -/
theorem span_term {c d : Cursor} {result : Expr × Bool} (h : term nested c = .ok (result, d)) :
    result.1.span = some ⟨c.pos, d.pos⟩ := by
  obtain ⟨_, _, hget, hrun⟩ := bind_eq_ok.mp h
  cases hget
  obtain ⟨ops, c₁, hops, hrun⟩ := bind_eq_ok.mp hrun
  obtain ⟨operand, c₂, hoperand, hrun⟩ := bind_eq_ok.mp hrun
  cases hlast : ops.getLast? with
  | none =>
      rw [hlast] at hrun
      cases hrun
      obtain rfl := List.getLast?_eq_none_iff.mp hlast
      cases chain_of_many hops
      exact places_primary nested (located_eq_ok hoperand)
  | some op =>
      rw [hlast] at hrun
      cases hrun
      rw [span_located hoperand]
      rfl

theorem span_traversal {newlines : Bool} {start : Cursor} {base : Located Expr} {c d : Cursor}
    {e : Expr} (hbase : base.value.span = some ⟨start.pos, c.pos⟩)
    (h : traversal nested newlines start base c = .ok (e, d)) :
    e.span = some ⟨start.pos, d.pos⟩ := by
  obtain ⟨_, _, hget, hrun⟩ := bind_eq_ok.mp h
  cases hget
  obtain ⟨between, c₁, -, hrun⟩ := bind_eq_ok.mp hrun
  obtain ⟨_, _, hahead, hrun⟩ := bind_eq_ok.mp hrun
  cases hahead
  split at hrun
  · obtain ⟨_, _, hget, hrun⟩ := bind_eq_ok.mp hrun
    cases hget
    obtain ⟨first, c₂, -, hrun⟩ := bind_eq_ok.mp hrun
    obtain ⟨layout, c₃, -, hrun⟩ := bind_eq_ok.mp hrun
    obtain ⟨others, c₄, -, hrun⟩ := bind_eq_ok.mp hrun
    cases hrun
    rfl
  · cases hrun
    exact hbase

theorem span_operation {newlines : Bool} {start : Cursor} {left : Expr} {c d : Cursor} {e : Expr}
    (hleft : left.span = some ⟨start.pos, c.pos⟩)
    (h : operation nested newlines start left c = .ok (e, d)) :
    e.span = some ⟨start.pos, d.pos⟩ := by
  obtain ⟨_, _, hget, hrun⟩ := bind_eq_ok.mp h
  cases hget
  obtain ⟨between, c₁, -, hrun⟩ := bind_eq_ok.mp hrun
  obtain ⟨_, _, hahead, hrun⟩ := bind_eq_ok.mp hrun
  cases hahead
  obtain ⟨_, _, hget, hrun⟩ := bind_eq_ok.mp hrun
  cases hget
  simp only at hrun
  split at hrun
  · cases hrun
    exact hleft
  · split at hrun
    · have hplaces : PlacesFrom start.pos (do
          Parser.byte Byte.question
          let yes ← within (separator newlines) (separator newlines) (nested.expr newlines)
          Parser.must (Parser.byte Byte.colon)
          let no ← within (separator newlines) (pure ()) (nested.expr newlines)
          let layout ← layoutFrom start [⟨start.pos, c₁.pos⟩, yes.span, no.span]
          return .conditional layout (left.followedBy between).withoutSpan yes.value no.value) :=
        .bind _ fun _ => .bind _ fun _ => .bind _ fun _ => .bind _ fun _ =>
          placesFrom_layout _ fun _ => rfl
      exact hplaces hrun
    · obtain ⟨op, c₂, -, hrun⟩ := bind_eq_ok.mp hrun
      cases op with
      | some op =>
          have hplaces : PlacesFrom start.pos (do
              let right ← within (separator newlines) (pure ()) (nested.expr newlines)
              return .binary (← layoutFrom start [⟨start.pos, c₁.pos⟩, right.span]) op
                (left.followedBy between) right.value) :=
            .bind _ fun _ => placesFrom_layout _ fun _ => rfl
          exact hplaces hrun
      | none =>
          cases hrun
          exact hleft

/-- An expression stands where it is read. -/
theorem places_expr (newlines : Bool) : Places (expr nested newlines) := by
  intro c e d h
  obtain ⟨_, _, hget, h⟩ := bind_eq_ok.mp h
  cases hget
  obtain ⟨⟨⟨base, parenthesized⟩, span⟩, c₁, hterm, h⟩ := bind_eq_ok.mp h
  obtain ⟨left, c₂, hleft, h⟩ := bind_eq_ok.mp h
  exact span_operation nested
    (span_traversal nested (span_term nested (located_eq_ok hterm)) hleft) h

end HclToJson.Grammar
