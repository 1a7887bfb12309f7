import HclToJson.Grammar.Body
import HclToJson.Proofs.Grammar.Literal
import HclToJson.Proofs.Grammar.Parser

namespace HclToJson

/-- A text has been read from one cursor to the other. -/
def Cursor.Reaches (c d : Cursor) : Prop :=
  ∃ read, c.rest = read ++ d.rest ∧ d.pos = c.pos + read.length

namespace Cursor

variable {c d e : Cursor}

theorem Reaches.refl (c : Cursor) : c.Reaches c := ⟨[], rfl, rfl⟩

theorem Reaches.trans (h : c.Reaches d) (h' : d.Reaches e) : c.Reaches e := by
  obtain ⟨read, hrest, hpos⟩ := h
  obtain ⟨read', hrest', hpos'⟩ := h'
  refine ⟨read ++ read', by rw [hrest, hrest', List.append_assoc], ?_⟩
  rw [hpos', hpos, List.length_append, Nat.add_assoc]

theorem reaches_drop {n : Nat} (h : n ≤ c.rest.length) : c.Reaches ⟨c.pos + n, c.rest.drop n⟩ :=
  ⟨c.rest.take n, (List.take_append_drop n c.rest).symm, by rw [List.length_take_of_le h]⟩

/-- What is in front of a cursor within a text is within it too. -/
theorem Reaches.inside {text behind : Bytes} (h : c.Reaches d) (hd : d.rest = text ++ behind) :
    ∃ text, c.rest = text ++ behind := by
  obtain ⟨read, hread, -⟩ := h
  exact ⟨read ++ text, by rw [hread, hd, List.append_assoc]⟩

end Cursor

namespace Parser

variable {α β : Type}

/-- From a cursor a parser goes forward by what it reads. -/
def AdvancesAt (c : Cursor) (p : Parser α) : Prop :=
  ∀ ⦃v : α⦄ ⦃d : Cursor⦄, p c = .ok (v, d) → c.Reaches d

def Advances (p : Parser α) : Prop := ∀ c, AdvancesAt c p

theorem advances_pure (value : α) : Advances (pure value) := by
  intro c v d h
  cases h
  exact .refl c

theorem advances_get : Advances get := by
  intro c v d h
  cases h
  exact .refl c

theorem advances_miss : Advances (miss : Parser α) := by
  intro c v d h
  cases h

theorem advances_wrong : Advances (wrong : Parser α) := by
  intro c v d h
  cases h

theorem advances_require (condition : Bool) : Advances (require condition) := by
  cases condition
  · exact advances_miss
  · exact advances_pure _

namespace AdvancesAt

variable {c : Cursor} {p : Parser α}

theorem take {n : Nat} (h : n ≤ c.rest.length) : AdvancesAt c (take n) := by
  intro v d hrun
  cases hrun
  exact Cursor.reaches_drop h

theorem bind (hp : AdvancesAt c p) {f : α → Parser β} (hf : ∀ v, Advances (f v)) :
    AdvancesAt c (p >>= f) := by
  intro v d h
  obtain ⟨first, c', hfirst, hrest⟩ := bind_eq_ok.mp h
  exact (hp hfirst).trans (hf first c' hrest)

theorem bind_require {condition : Bool} {f : Unit → Parser β}
    (hf : condition = true → AdvancesAt c (f ⟨⟩)) : AdvancesAt c (require condition >>= f) := by
  intro v d h
  obtain ⟨first, c', hfirst, hrest⟩ := bind_eq_ok.mp h
  cases condition with
  | false => cases hfirst
  | true =>
      cases hfirst
      exact hf rfl hrest

theorem discard (hp : AdvancesAt c p) : AdvancesAt c (discard p) := by
  intro v d h
  rw [discard_eq] at h
  split at h
  · rename_i value c' hvalue
    cases h
    exact hp hvalue
  · cases h

end AdvancesAt

namespace Advances

variable {p : Parser α}

theorem bind (hp : Advances p) {f : α → Parser β} (hf : ∀ v, Advances (f v)) :
    Advances (p >>= f) :=
  fun c => (hp c).bind hf

/-- A parser that starts with a look at the text. -/
theorem bind_ahead {f : Bytes → Parser β} (hf : ∀ c, AdvancesAt c (f c.rest)) :
    Advances (ahead >>= f) := by
  intro c v d h
  obtain ⟨text, c', htext, hrest⟩ := bind_eq_ok.mp h
  cases htext
  exact hf c hrest

theorem map (hp : Advances p) (f : α → β) : Advances (f <$> p) := by
  intro c v d h
  rw [map_eq] at h
  split at h
  · rename_i value c' hvalue
    cases h
    exact hp c hvalue
  · cases h

theorem discard (hp : Advances p) : Advances (discard p) := hp.map _

theorem must (hp : Advances p) : Advances (must p) := by
  intro c v d h
  rw [must_eq] at h
  split at h
  · rename_i result hresult
    cases h
    exact hp c hresult
  · cases h

theorem optional (hp : Advances p) : Advances (Parser.optional p) := by
  intro c v d h
  rw [optional_eq] at h
  split at h
  · rename_i value c' hvalue
    cases h
    exact hp c hvalue
  · cases h
    exact .refl c
  · cases h

theorem either {q : Parser α} (hp : Advances p) (hq : Advances q) : Advances (either p q) := by
  intro c v d h
  rw [either_eq] at h
  split at h
  · rename_i result hresult
    cases h
    exact hp c hresult
  · exact hq c h
  · cases h

theorem many (hp : Advances p) : Advances (many p) := by
  have hwithin : ∀ fuel, Advances (manyWithin p fuel) := by
    intro fuel
    induction fuel with
    | nil => exact advances_pure _
    | cons b fuel ih =>
        intro c v d h
        rw [manyWithin_eq] at h
        split at h
        · rename_i value c' hvalue
          split at h
          · rename_i values c'' hvalues
            cases h
            exact (hp c hvalue).trans (ih c' hvalues)
          · cases h
        · cases h
          exact .refl c
        · cases h
  intro c v d h
  exact hwithin c.rest c h

theorem located (hp : Advances p) : Advances (located p) :=
  advances_get.bind fun _ => hp.bind fun _ => advances_get.bind fun _ => advances_pure _

theorem spelling (hp : Advances p) : Advances (spelling p) :=
  advances_get.bind fun _ => hp.discard.bind fun _ => advances_get.bind fun _ => advances_pure _

theorem ite {p q : Parser α} {condition : Prop} [Decidable condition] (hp : Advances p)
    (hq : Advances q) : Advances (if condition then p else q) := by
  split
  · exact hp
  · exact hq

theorem bind_get {f : Cursor → Parser β} (hf : ∀ c, AdvancesAt c (f c)) :
    Advances (get >>= f) := by
  intro c v d h
  obtain ⟨start, c', hstart, hrest⟩ := bind_eq_ok.mp h
  cases hstart
  exact hf c hrest

end Advances

/-- A parser that comes back to a cursor, whatever it has read. -/
def EndsAt (c : Cursor) (p : Parser α) : Prop := ∀ ⦃c' v d⦄, p c' = .ok (v, d) → d = c

theorem endsAt_set (c : Cursor) (value : α) :
    EndsAt c (do
      set c
      return value) := by
  intro c' v d h
  cases h
  rfl

theorem EndsAt.bind {c : Cursor} (p : Parser α) {f : α → Parser β} (hf : ∀ v, EndsAt c (f v)) :
    EndsAt c (p >>= f) := by
  intro c' v d h
  obtain ⟨first, c'', -, hrest⟩ := bind_eq_ok.mp h
  exact hf first hrest

/-- A parser that reads ahead and comes back to where it started. -/
theorem Advances.lookahead {f : Cursor → Parser α} (hf : ∀ c, EndsAt c (f c)) :
    Advances (get >>= f) :=
  .bind_get fun c v d h => by
    obtain rfl := hf c h
    exact .refl d

theorem advances_exactly (expected : Bytes) : Advances (exactly expected) :=
  .bind_ahead fun _ => .bind_require fun h =>
    (AdvancesAt.take (List.isPrefixOf_iff_prefix.mp h).length_le).discard

theorem advances_byte (b : UInt8) : Advances (byte b) := advances_exactly [b]

theorem advances_keyword (word : String) : Advances (keyword word) := advances_exactly _

theorem advances_flag (b : UInt8) : Advances (flag b) :=
  (advances_byte b).optional.bind fun _ => advances_pure _

end Parser

namespace Grammar

open HclToJson.Parser

/-! ### Blanks -/

theorem newlineLength_le (text : Bytes) : newlineLength text ≤ text.length := by
  unfold newlineLength
  split <;> simp

theorem closeLength?_le {text : Bytes} {n : Nat} (h : closeLength? text = some n) :
    n ≤ text.length := by
  induction text generalizing n with
  | nil => simp [closeLength?] at h
  | cons b rest ih =>
      rw [closeLength?.eq_def] at h
      split at h
      · rename_i heq
        cases heq
        cases h
        simp
      · rename_i heq
        cases heq
        obtain ⟨m, hm, rfl⟩ := Option.map_eq_some_iff.mp h
        exact Nat.succ_le_succ (ih hm)
      · rename_i heq
        cases heq

theorem lineLength?_le {text : Bytes} {n : Nat} (h : lineLength? text = some n) :
    n ≤ text.length := by
  induction text generalizing n with
  | nil =>
      cases h
      exact Nat.le_refl 0
  | cons b rest ih =>
      rw [lineLength?] at h
      split at h
      · cases h
        exact Nat.zero_le _
      · split at h
        · cases h
        · obtain ⟨m, hm, rfl⟩ := Option.map_eq_some_iff.mp h
          exact Nat.succ_le_succ (ih hm)

theorem blockCommentLength?_le {text : Bytes} {n : Nat} (h : blockCommentLength? text = some n) :
    n ≤ text.length := by
  unfold blockCommentLength? at h
  split at h
  · obtain ⟨m, hm, rfl⟩ := Option.map_eq_some_iff.mp h
    exact Nat.add_le_add_right (closeLength?_le hm) 2
  · cases h

theorem lineCommentLength?_le {text : Bytes} {n : Nat} (h : lineCommentLength? text = some n) :
    n ≤ text.length := by
  unfold lineCommentLength? at h
  split at h
  · obtain ⟨m, hm, rfl⟩ := Option.map_eq_some_iff.mp h
    exact Nat.add_le_add_right (lineLength?_le hm) 1
  · obtain ⟨m, hm, rfl⟩ := Option.map_eq_some_iff.mp h
    exact Nat.add_le_add_right (lineLength?_le hm) 2
  · cases h

theorem blankPiece_le (newlines : Bool) (text : Bytes) :
    blankPiece newlines text ≤ text.length := by
  unfold blankPiece
  split
  · exact Nat.le_refl 0
  · split
    · simp
    · split
      · simp
      · split
        · rename_i hblock
          exact blockCommentLength?_le hblock
        · split
          · cases hline : lineCommentLength? _ with
            | none => exact Nat.zero_le _
            | some n => exact lineCommentLength?_le hline
          · exact Nat.zero_le _

theorem blankLength_cons (newlines : Bool) (b : UInt8) (fuel text : Bytes) :
    blankLength newlines (b :: fuel) text =
      if blankPiece newlines text = 0 then 0
      else blankPiece newlines text +
        blankLength newlines fuel (text.drop (blankPiece newlines text)) := by
  rw [blankLength]
  split
  · rename_i hzero
    rw [if_pos hzero]
  · rename_i hne
    rw [if_neg hne]

theorem blankLength_le (newlines : Bool) (fuel text : Bytes) :
    blankLength newlines fuel text ≤ text.length := by
  induction fuel generalizing text with
  | nil => exact Nat.zero_le _
  | cons b fuel ih =>
      have hpiece := blankPiece_le newlines text
      have hrest := ih (text.drop (blankPiece newlines text))
      rw [List.length_drop] at hrest
      rw [blankLength_cons]
      split
      · exact Nat.zero_le _
      · omega

theorem advances_separator (newlines : Bool) : Advances (separator newlines) :=
  .bind_ahead fun _ => (AdvancesAt.take (blankLength_le _ _ _)).discard

theorem advances_blank : Advances blank := advances_separator false

theorem advances_blankLines : Advances blankLines := advances_separator true

theorem advances_nextToken : Advances nextToken :=
  .lookahead fun c => .bind _ fun _ => .bind _ fun _ => endsAt_set c _

theorem advances_newline : Advances newline :=
  .bind_ahead fun _ => .bind_require fun _ => (AdvancesAt.take (newlineLength_le _)).discard

theorem advances_lineComment : Advances lineComment := by
  refine .bind_ahead fun c => ?_
  split
  · rename_i n hn
    exact (AdvancesAt.take (lineCommentLength?_le hn)).discard
  · exact advances_miss c

theorem advances_trailingComment : Advances trailingComment :=
  advances_blank.bind fun _ => advances_lineComment.optional.discard

/-! ### Tokens -/

theorem identLength_le (text : Bytes) : Text.identLength text ≤ text.length := by
  unfold Text.identLength
  split
  · exact Nat.le_refl 0
  · rename_i b rest
    split
    · have hrest := (List.takeWhile_prefix Text.isIdentContinue (l := rest)).length_le
      rw [List.length_cons]
      omega
    · exact Nat.zero_le _

theorem advances_ident : Advances ident :=
  .bind_ahead fun _ => .bind_require fun _ =>
    (AdvancesAt.take (identLength_le _)).bind fun _ => advances_pure _

theorem advances_digits : Advances digits :=
  .bind_ahead fun _ => .bind_require fun _ =>
    (AdvancesAt.take (List.takeWhile_prefix _).length_le).bind fun _ => advances_pure _

theorem advances_fraction : Advances fraction :=
  (advances_byte _).bind fun _ => advances_digits

theorem advances_exponent : Advances exponent := by
  refine .bind_ahead fun c => ?_
  split
  · rename_i hhead
    have hlength : 1 ≤ c.rest.length := by
      cases hrest : c.rest with
      | nil => simp [hrest] at hhead
      | cons b rest => simp
    refine (AdvancesAt.take hlength).discard.bind fun _ => (advances_flag _).bind fun negative => ?_
    have hdigits : Advances (do
        let size : Int := Decimal.readNat (← digits)
        return some (if negative then -size else size)) :=
      advances_digits.bind fun _ => advances_pure _
    exact .ite ((advances_flag _).discard.bind fun _ => hdigits) hdigits
  · exact advances_pure _ c

theorem advances_float : Advances float :=
  advances_digits.bind fun _ => advances_fraction.optional.bind fun _ =>
    advances_exponent.bind fun _ => (advances_require _).bind fun _ =>
      (advances_require _).bind fun _ => advances_pure _

theorem advances_integerNumber : Advances integerNumber :=
  (advances_digits.bind fun _ => (advances_require _).bind fun _ => advances_pure _).bind
    fun _ => advances_pure _

theorem advances_brokenExponent : Advances brokenExponent :=
  .lookahead fun c => .bind _ fun _ => .bind _ fun _ => .bind _ fun _ => endsAt_set c _

theorem advances_unsigned : Advances unsigned := by
  refine advances_brokenExponent.bind fun broken => ?_
  cases broken with
  | true => exact advances_wrong
  | false => exact advances_float.either advances_integerNumber

theorem advances_number : Advances number := by
  refine (advances_flag _).bind fun negative => ?_
  cases negative with
  | true => exact advances_blank.bind fun _ => advances_unsigned.bind fun _ => advances_pure _
  | false => exact advances_unsigned

/-! ### Literal text -/

theorem advances_quotedText : Advances quotedText := by
  refine .bind_ahead fun c => ?_
  split
  · rename_i n value hrun
    exact (AdvancesAt.take (quotedRun?_le hrun)).discard.bind fun _ => advances_pure _
  · exact advances_miss c

theorem advances_rawText (stops : Bytes → Bool) : Advances (rawText stops) :=
  .bind_ahead fun c => .bind_require fun _ =>
    (AdvancesAt.take (rawRun_le stops c.rest c.rest)).discard.bind fun _ => advances_pure _

theorem advances_plainString : Advances plainString :=
  (advances_byte _).bind fun _ => advances_quotedText.optional.bind fun _ =>
    (advances_byte _).bind fun _ => advances_pure _

/-! ### Templates -/

theorem advances_layoutFrom (start : Cursor) (children : List Span) :
    Advances (layoutFrom start children) :=
  advances_get.bind fun _ => advances_pure _

theorem advances_within {front back : Parser Unit} {expr : Parser Expr} (hfront : Advances front)
    (hexpr : Advances expr) (hback : Advances back) : Advances (within front back expr) :=
  .located (hfront.spelling.bind fun _ => hexpr.bind fun _ => hback.spelling.bind fun _ =>
    advances_pure _)

theorem advances_openTag : Advances openTag :=
  (advances_exactly _).bind fun _ => (advances_flag _).bind fun _ =>
    advances_blankLines.bind fun _ =>
    advances_pure _

theorem advances_closeTag : Advances closeTag :=
  (advances_flag _).bind fun _ => (advances_byte _).must.bind fun _ => advances_pure _

theorem advances_wordTag (word : String) : Advances (wordTag word) :=
  advances_openTag.bind fun _ => (advances_keyword _).bind fun _ =>
    advances_blankLines.bind fun _ =>
    advances_closeTag.bind fun _ => advances_pure _

theorem advances_loop : Advances loop := by
  refine advances_ident.must.bind fun _ => advances_blankLines.bind fun _ =>
    .bind (.optional (.bind (advances_byte _) fun _ => advances_blankLines.bind fun _ =>
      advances_ident.must.bind fun _ => advances_blankLines.bind fun _ => advances_pure _))
      fun second => ?_
  cases second with
  | some _ => exact advances_pure _
  | none => exact advances_pure _

structure Nested.Advances (nested : Nested) : Prop where
  expr : ∀ newlines, Parser.Advances (nested.expr newlines)
  body : Parser.Advances nested.body

section

variable {nested : Nested} (h : nested.Advances)

include h

theorem advances_spaced : Advances (spaced nested) :=
  advances_within advances_blankLines (h.expr false) advances_blankLines

theorem advances_interpolation : Advances (interpolation nested) :=
  advances_get.bind fun _ => (advances_exactly _).bind fun _ => (advances_flag _).bind fun _ =>
    (advances_spaced h).bind fun _ => advances_closeTag.bind fun _ =>
      (advances_layoutFrom _ _).bind fun _ => advances_pure _

theorem advances_choice : Advances (choice nested) :=
  advances_get.bind fun _ => advances_openTag.bind fun _ => (advances_keyword _).bind fun _ =>
    (advances_spaced h).bind fun _ => advances_closeTag.bind fun _ => h.body.bind fun _ =>
      .bind (.optional ((advances_wordTag _).bind fun _ => h.body.bind fun _ => advances_pure _))
        fun _ => (advances_wordTag _).bind fun _ => (advances_layoutFrom _ _).bind fun _ =>
          advances_pure _

theorem advances_repetition : Advances (repetition nested) :=
  advances_get.bind fun _ => advances_openTag.bind fun _ => (advances_keyword _).bind fun _ =>
    advances_blankLines.bind fun _ => advances_loop.bind fun _ =>
      (advances_keyword _).must.bind fun _ => (advances_spaced h).bind fun _ =>
        advances_closeTag.bind fun _ => h.body.bind fun _ => (advances_wordTag _).bind fun _ =>
          (advances_layoutFrom _ _).bind fun _ => advances_pure _

theorem advances_element {literal : Parser String} (hliteral : Advances literal) :
    Advances (element literal nested) :=
  .located (.either (hliteral.map _) (.either (advances_interpolation h)
    (.either (advances_choice h) (advances_repetition h))))

theorem advances_rawTemplate : Advances (rawTemplate nested) :=
  (advances_element h (advances_rawText _)).many

theorem advances_quotedTemplate : Advances (quotedTemplate nested) :=
  advances_get.bind fun _ => (advances_byte _).bind fun _ =>
    (advances_element h advances_quotedText).many.bind fun _ => (advances_byte _).bind fun _ =>
      (advances_layoutFrom _ _).bind fun _ => advances_pure _

theorem advances_heredocLines (delimiter : Bytes) : Advances (heredocLines delimiter nested) :=
  .bind (.optional ((advances_element h (advances_rawText _)).many.bind fun _ =>
    advances_newline.spelling.located.bind fun _ => advances_pure _)) fun _ => advances_pure _

theorem advances_heredoc : Advances (heredoc nested) := by
  refine advances_get.bind fun _ => (advances_exactly _).bind fun _ =>
    (advances_flag _).bind fun _ =>
    advances_ident.spelling.must.bind fun _ => advances_newline.must.bind fun _ =>
      (advances_heredocLines h _).bind fun _ => .bind_ahead fun _ =>
        (AdvancesAt.take (List.takeWhile_prefix _).length_le).discard.bind fun _ =>
          (advances_exactly _).must.bind fun _ => (advances_layoutFrom _ _).bind fun _ =>
            advances_pure _

/-! ### Expressions -/

theorem advances_listItem (ends : List UInt8) : Advances (listItem nested ends) :=
  advances_nextToken.bind fun _ => (advances_require _).bind fun _ => advances_spaced h

theorem advances_commaSeparated (ends : List UInt8) : Advances (commaSeparated nested ends) := by
  refine (advances_listItem h ends).optional.bind fun first => ?_
  cases first with
  | none => exact advances_pure _
  | some _ =>
      exact .bind (.many ((advances_byte _).bind fun _ => advances_listItem h ends)) fun _ =>
        advances_pure _

theorem advances_string : Advances (string nested) := by
  refine advances_get.bind fun _ => advances_plainString.optional.bind fun text => ?_
  cases text with
  | some _ => exact (advances_layoutFrom _ _).bind fun _ => advances_pure _
  | none => exact advances_quotedTemplate h

omit h in
theorem advances_opensComprehension : Advances opensComprehension :=
  .lookahead fun c => .bind _ fun _ => .bind _ fun _ => .bind _ fun _ => endsAt_set c _

omit h in
theorem advances_ellipsis : Advances ellipsis :=
  (advances_exactly _).optional.bind fun _ => advances_pure _

theorem advances_comprehensionKey (braces : Bool) : Advances (comprehensionKey nested braces) := by
  cases braces with
  | true =>
      exact (advances_spaced h).bind fun _ =>
        (advances_exactly _).must.bind fun _ => advances_pure _
  | false => exact advances_pure _

theorem advances_comprehensionFilter : Advances (comprehensionFilter nested) :=
  .optional (advances_blankLines.bind fun _ => (advances_keyword _).bind fun _ => advances_spaced h)

theorem advances_comprehension (start : Cursor) (braces : Bool) :
    Advances (comprehension nested start braces) :=
  advances_blankLines.bind fun _ => (advances_keyword _).bind fun _ =>
    advances_blankLines.bind fun _ =>
    advances_loop.bind fun _ => (advances_keyword _).must.bind fun _ =>
      (advances_spaced h).bind fun _ =>
      (advances_byte _).must.bind fun _ => (advances_comprehensionKey h braces).bind fun _ =>
        (advances_spaced h).bind fun _ => .bind (.ite advances_ellipsis (advances_pure _)) fun _ =>
          (advances_comprehensionFilter h).bind fun _ => (advances_byte _).must.bind fun _ =>
            (advances_layoutFrom _ _).bind fun _ => advances_pure _

theorem advances_array : Advances (array nested) := by
  refine advances_get.bind fun start => (advances_byte _).bind fun _ =>
    advances_opensComprehension.bind fun loops => ?_
  cases loops with
  | true => exact advances_comprehension h start false
  | false =>
      refine (advances_commaSeparated h _).bind fun items => ?_
      have hend : Advances (do
          blankLines
          Parser.must (Parser.byte Byte.closeBracket)
          return Expr.array (← layoutFrom start (spans items)) (items.map (·.value))) :=
        advances_blankLines.bind fun _ => (advances_byte _).must.bind fun _ =>
          (advances_layoutFrom _ _).bind fun _ => advances_pure _
      exact .ite ((advances_flag _).discard.bind fun _ => hend) hend

omit h in
theorem advances_itemEnd : Advances itemEnd :=
  .either (advances_byte _) (.either (advances_lineComment.optional.discard.bind fun _ =>
    advances_newline)
    (.bind_ahead fun _ => advances_require _ _))

theorem advances_objectItem : Advances (objectItem nested) := by
  refine advances_get.bind fun _ => advances_nextToken.bind fun _ =>
    (advances_require _).bind fun _ =>
    (advances_within advances_blankLines (h.expr false) advances_blank).bind fun key =>
      Advances.bind (.must (.either (advances_byte _) (advances_byte _))) fun _ =>
        (advances_within advances_blank (h.expr false) advances_blank).bind fun _ =>
          advances_itemEnd.must.bind fun _ => ?_
  split
  · exact (advances_layoutFrom _ _).bind fun _ => advances_pure _
  · exact (advances_layoutFrom _ _).bind fun _ => advances_pure _

theorem advances_object : Advances (object nested) := by
  refine advances_get.bind fun start => (advances_byte _).bind fun _ =>
    advances_opensComprehension.bind fun loops => ?_
  cases loops with
  | true => exact advances_comprehension h start true
  | false =>
      exact (advances_objectItem h).located.many.bind fun _ => advances_blankLines.bind fun _ =>
        (advances_byte _).must.bind fun _ => (advances_layoutFrom _ _).bind fun _ => advances_pure _

omit h in
theorem advances_numberLiteral : Advances numberLiteral :=
  advances_get.bind fun _ => advances_number.bind fun _ => (advances_layoutFrom _ _).bind fun _ =>
    advances_pure _

theorem advances_paren : Advances (paren nested) :=
  advances_get.bind fun _ => (advances_byte _).bind fun _ =>
    (advances_within advances_blankLines (h.expr true) advances_blankLines).bind fun _ =>
      (advances_byte _).must.bind fun _ => (advances_layoutFrom _ _).bind fun _ => advances_pure _

omit h in
theorem advances_argumentsEnd : Advances argumentsEnd := by
  refine (advances_flag _).bind fun comma => ?_
  cases comma with
  | true => exact advances_pure _
  | false => exact advances_ellipsis

theorem advances_callArguments : Advances (callArguments nested) := by
  refine (advances_commaSeparated h _).bind fun arguments => ?_
  have hend : ∀ spread : Bool, Advances (do
      blankLines
      Parser.must (Parser.byte Byte.closeParen)
      return (arguments, spread)) := fun spread =>
    advances_blankLines.bind fun _ => (advances_byte _).must.bind fun _ => advances_pure _
  exact .ite (.bind (advances_pure _) hend) (advances_argumentsEnd.bind hend)

theorem advances_named : Advances (named nested) := by
  refine advances_get.bind fun start => advances_ident.bind fun name =>
    Advances.bind (.optional (advances_blankLines.bind fun _ => advances_byte _)) fun opening => ?_
  refine .ite ((advances_callArguments h).bind fun arguments => ?_) ((advances_layoutFrom _ _).bind
    fun _ => ?_)
  · exact (advances_layoutFrom _ _).bind fun _ => advances_pure _
  · exact .ite (advances_pure _) (.ite (advances_pure _) (.ite (advances_pure _) (advances_pure _)))

theorem advances_primary : Advances (primary nested) := by
  refine .bind_ahead fun c => ?_
  split
  · exact advances_miss c
  · exact Advances.ite (advances_string h) (.ite (advances_array h) (.ite (advances_object h)
      (.ite (advances_paren h) (.ite (advances_heredoc h) (.ite advances_numberLiteral
        (.ite (advances_named h) advances_wrong)))))) c

omit h in
theorem advances_unaryOp : Advances unaryOp := by
  refine .bind_get fun c v d h => ?_
  have hop : Advances (do
      let op ← Parser.either
        (do
          Parser.byte Byte.minus
          return UnaryOp.neg)
        (do
          Parser.byte Byte.exclamation
          return UnaryOp.not)
      blank
      return op) :=
    .bind (.either ((advances_byte _).bind fun _ => advances_pure _)
      ((advances_byte _).bind fun _ => advances_pure _)) fun _ => advances_blank.bind fun _ =>
        advances_pure _
  obtain ⟨_, _, -, h⟩ := bind_eq_ok.mp h
  obtain ⟨_, _, -, h⟩ := bind_eq_ok.mp h
  obtain ⟨_, _, hset, h⟩ := bind_eq_ok.mp h
  cases hset
  exact hop c h

theorem advances_term : Advances (term nested) := by
  refine advances_get.bind fun start => advances_unaryOp.many.bind fun ops =>
    (advances_primary h).located.bind fun operand => ?_
  simp only
  split
  · exact advances_pure _
  · exact advances_pure _

omit h in
theorem advances_elementIndex : Advances elementIndex := by
  refine .bind_ahead fun c => ?_
  refine .bind (.take ?_) fun _ => (advances_require _).bind fun _ => advances_pure _
  split
  · rename_i hzero
    cases hrest : c.rest with
    | nil => simp [hrest] at hzero
    | cons b rest => simp
  · exact (List.takeWhile_prefix _).length_le

omit h in
theorem advances_attributeStep (start : Cursor) : Advances (attributeStep start) := by
  refine .bind_ahead fun c => ?_
  split
  · exact advances_miss c
  · rename_i b hhead
    have hlength : 1 ≤ c.rest.length := by
      cases hrest : c.rest with
      | nil => simp [hrest] at hhead
      | cons b rest => simp
    split
    · exact (AdvancesAt.take hlength).discard.bind fun _ => (advances_layoutFrom _ _).bind fun _ =>
        advances_pure _
    · exact Advances.ite (advances_elementIndex.bind fun _ =>
      (advances_layoutFrom _ _).bind fun _ =>
        advances_pure _) (.ite (advances_ident.bind fun _ => (advances_layoutFrom _ _).bind fun _ =>
          advances_pure _) advances_wrong) c

theorem advances_indexStep (start : Cursor) : Advances (indexStep nested start) :=
  advances_nextToken.bind fun _ => .ite
    (advances_blankLines.bind fun _ => (advances_byte _).bind fun _ =>
      advances_blankLines.bind fun _ =>
      (advances_byte _).must.bind fun _ => (advances_layoutFrom _ _).bind fun _ => advances_pure _)
    ((advances_spaced h).bind fun _ => (advances_byte _).must.bind fun _ =>
      (advances_layoutFrom _ _).bind fun _ => advances_pure _)

theorem advances_step : Advances (step nested) := by
  refine advances_get.bind fun start => (advances_flag _).bind fun dot => ?_
  cases dot with
  | true => exact advances_blankLines.bind fun _ => advances_attributeStep start
  | false => exact (advances_byte _).bind fun _ => advances_indexStep h start

theorem advances_laterSteps (newlines : Bool) (fuel : Bytes) :
    Advances (laterSteps nested newlines fuel) := by
  induction fuel with
  | nil => exact advances_pure _
  | cons b fuel ih =>
      refine .bind_get fun c v d hrun => ?_
      obtain ⟨_, c', hseparator, hrun⟩ := bind_eq_ok.mp hrun
      obtain ⟨_, _, hahead, hrun⟩ := bind_eq_ok.mp hrun
      cases hahead
      split at hrun
      · have hsteps : Advances (do
            let step ← step nested
            let steps ← laterSteps nested newlines fuel
            return step :: steps) :=
          (advances_step h).bind fun _ => ih.bind fun _ => advances_pure _
        exact (advances_separator newlines c hseparator).trans (hsteps c' hrun)
      · obtain rfl := endsAt_set c [] hrun
        exact .refl d

theorem advances_traversal (newlines : Bool) (start : Cursor) (base : Located Expr) :
    Advances (traversal nested newlines start base) := by
  refine .bind_get fun c v d hrun => ?_
  obtain ⟨between, c', hseparator, hrun⟩ := bind_eq_ok.mp hrun
  obtain ⟨text, _, hahead, hrun⟩ := bind_eq_ok.mp hrun
  cases hahead
  split at hrun
  · have hreach := (advances_separator newlines).spelling c hseparator
    refine hreach.trans (Advances.bind advances_get (fun _ => ?_) c' hrun)
    exact (advances_step h).located.bind fun _ => (advances_layoutFrom _ _).bind fun _ =>
      (advances_laterSteps h newlines _).bind fun _ => advances_get.bind fun _ => advances_pure _
  · obtain rfl := endsAt_set c base.value hrun
    exact .refl d

omit h in
theorem advances_binaryOp : Advances binaryOp := by
  refine .bind_ahead fun c => ?_
  split
  · rename_i spelling op hfind
    have hprefix := List.find?_some hfind
    exact (AdvancesAt.take (List.isPrefixOf_iff_prefix.mp hprefix).length_le).discard.bind fun _ =>
      advances_pure _
  · exact advances_miss c

theorem advances_operation (newlines : Bool) (start : Cursor) (left : Expr) :
    Advances (operation nested newlines start left) := by
  have haround := advances_separator newlines
  refine .bind_get fun c v d hrun => ?_
  obtain ⟨between, c', hseparator, hrun⟩ := bind_eq_ok.mp hrun
  have hreach := haround.spelling c hseparator
  obtain ⟨text, _, hahead, hrun⟩ := bind_eq_ok.mp hrun
  cases hahead
  obtain ⟨_, _, hget, hrun⟩ := bind_eq_ok.mp hrun
  cases hget
  simp only at hrun
  split at hrun
  · obtain rfl := endsAt_set c left hrun
    exact .refl d
  · split at hrun
    · refine hreach.trans (Advances.bind (advances_byte _) (fun _ => ?_) c' hrun)
      exact (advances_within haround (h.expr newlines) haround).bind fun _ =>
        (advances_byte _).must.bind fun _ =>
          (advances_within haround (h.expr newlines) (advances_pure _)).bind fun _ =>
            (advances_layoutFrom _ _).bind fun _ => advances_pure _
    · obtain ⟨op, c'', hop, hrun⟩ := bind_eq_ok.mp hrun
      cases op with
      | some op =>
          refine (hreach.trans (advances_binaryOp.optional c' hop)).trans ?_
          refine Advances.bind (advances_within haround (h.expr newlines) (advances_pure _))
            (fun _ => ?_) c'' hrun
          exact (advances_layoutFrom _ _).bind fun _ => advances_pure _
      | none =>
          obtain rfl := endsAt_set c left hrun
          exact .refl d

theorem advances_expr (newlines : Bool) : Advances (expr nested newlines) :=
  advances_get.bind fun _ => (advances_term h).located.bind fun _ =>
    (advances_traversal h _ _ _).bind fun _ => advances_operation h _ _ _

end

theorem advances_nestedTo (depth : Nat) : (nestedTo depth).Advances := by
  induction depth with
  | zero => exact ⟨fun _ => advances_miss, advances_miss⟩
  | succ depth ih => exact ⟨fun newlines => advances_expr ih newlines, advances_rawTemplate ih⟩

/-! ### Bodies -/

theorem advances_label : Advances label := advances_plainString.either advances_ident

theorem advances_structureEnd : Advances structureEnd :=
  advances_trailingComment.bind fun _ =>
    .either advances_newline (.bind_ahead fun _ => advances_require _ _)

section

variable {nested : Nested} (h : nested.Advances)

include h

theorem advances_attributeValue : Advances (attributeValue nested) :=
  (advances_byte _).bind fun _ => advances_blank.bind fun _ => h.expr false

theorem advances_inlineBody : Advances (inlineBody nested) :=
  .bind (.optional (advances_blank.bind fun _ => advances_ident.bind fun _ => advances_blank.bind
    fun _ => (advances_attributeValue h).bind fun _ => advances_blank.bind fun _ =>
      advances_pure _))
    fun _ => advances_blank.bind fun _ => (advances_byte _).bind fun _ => advances_pure _

theorem advances_blockBody {body : Parser Body} (hbody : Advances body) :
    Advances (blockBody nested body) :=
  (advances_byte _).bind fun _ =>
    .bind (.optional (advances_trailingComment.bind fun _ => advances_newline)) fun _ =>
      .ite (hbody.bind fun _ => (advances_byte _).bind fun _ => advances_pure _)
        (advances_inlineBody h)

theorem advances_bodyItem {body : Parser Body} (hbody : Advances body) :
    Advances (bodyItem nested body) := by
  refine advances_ident.bind fun _ => advances_blank.bind fun _ => .bind_ahead fun c => ?_
  exact Advances.ite ((advances_attributeValue h).bind fun _ => advances_pure _)
    (.bind (.many (advances_label.bind fun _ => advances_blank.bind fun _ => advances_pure _))
      fun _ =>
      (advances_blockBody h hbody).bind fun _ => advances_pure _) c

theorem advances_body (depth : Nat) : Advances (body nested depth) := by
  induction depth with
  | zero => exact advances_miss
  | succ depth ih =>
      exact .bind (.many (advances_blankLines.bind fun _ => (advances_bodyItem h ih).bind fun _ =>
        advances_structureEnd.bind fun _ => advances_pure _)) fun _ => advances_blankLines.bind
          fun _ => (advances_require _).bind fun _ => advances_pure _

end

end Grammar

end HclToJson
