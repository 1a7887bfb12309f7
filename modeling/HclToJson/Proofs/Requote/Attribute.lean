import HclToJson.Proofs.Grammar.Place
import HclToJson.Proofs.Requote.Token

namespace HclToJson

mutual

def Structure.expressions : Structure → List Expr
  | .attribute _ value => [value]
  | .block _ _ structures => Body.expressions structures
  termination_by structural item => item

/-- The values of the attributes of a body and of the blocks in it, at any nesting. -/
def Body.expressions : Body → List Expr
  | [] => []
  | item :: rest => item.expressions ++ Body.expressions rest
  termination_by structural items => items

end

theorem mem_bodyExpressions {structures : Body} {e : Expr} :
    e ∈ Body.expressions structures ↔ ∃ item ∈ structures, e ∈ item.expressions := by
  induction structures with
  | nil => simp [Body.expressions]
  | cons item rest ih => simp [Body.expressions, ih]

namespace Grammar

open Comment Text HclToJson.Parser

/-- An expression is read as the value of an attribute, behind a cursor. -/
def IsValue (nested : Nested) (c : Cursor) (e : Expr) : Prop :=
  ∃ c' d, c.Reaches c' ∧ attributeValue nested c' = .ok (e, d) ∧ Ends d.rest

section

variable {nested : Nested} {c c' d : Cursor} {e : Expr}

theorem IsValue.behind (h : c.Reaches c') (hvalue : IsValue nested c' e) : IsValue nested c e := by
  obtain ⟨c₁, d, hreaches, hrun, hends⟩ := hvalue
  exact ⟨c₁, d, h.trans hreaches, hrun, hends⟩

/-! ### What may stand behind a value -/

theorem ends_of_head? {b : UInt8} {text : Bytes}
    (hb : b ∈ valueEnds) : Ends (b :: text) := by
  intro d hd
  obtain rfl : b = d := by simpa using hd
  exact hb

theorem ends_of_blankPiece {newlines : Bool} {text : Bytes} (h : blankPiece newlines text ≠ 0) :
    Ends text := by
  intro b hb
  obtain ⟨rest, rfl⟩ := List.head?_eq_some_iff.mp hb
  by_contra hnot
  refine h (blankPiece_settled (fun e he => ?_) newlines)
  obtain rfl : b = e := by simpa using he
  have hall : ∀ b : UInt8, Byte.isBlank b = true → b ∈ valueEnds :=
    Byte.forall_of_lt (by decide +kernel)
  refine ⟨Bool.eq_false_iff.mpr fun hblank => hnot (hall b hblank), fun hopens => hnot ?_⟩
  rcases hopens.eq_hash_or_slash with rfl | rfl <;> decide

theorem ends_of_blank {value : Unit} (h : blank c = .ok (value, d)) (hends : Ends d.rest) :
    Ends c.rest := by
  by_cases hzero : blankPiece false c.rest = 0
  · have hlength : blankLength false c.rest c.rest = 0 := by
      cases hrest : c.rest with
      | nil => rfl
      | cons b rest => rw [← hrest, hrest, blankLength_cons, ← hrest, if_pos hzero]
    rw [blank, separator_eq, hlength] at h
    cases h
    exact hends
  · exact ends_of_blankPiece hzero

theorem ends_of_newline {value : Unit} (h : newline c = .ok (value, d)) : Ends c.rest := by
  obtain ⟨_, _, hahead, h⟩ := bind_eq_ok.mp h
  cases hahead
  obtain ⟨_, _, hrequire, -⟩ := bind_eq_ok.mp h
  rw [require_eq] at hrequire
  split at hrequire
  · rename_i hlength
    rw [decide_eq_true_eq, newlineLength.eq_def] at hlength
    split at hlength
    · rename_i hrest
      rw [hrest]
      exact ends_of_head? (by decide)
    · rename_i hrest
      rw [hrest]
      exact ends_of_head? (by decide)
    · exact absurd hlength (Nat.lt_irrefl 0)
  · cases hrequire

theorem ends_of_lineComment {value : Unit} (h : lineComment c = .ok (value, d)) : Ends c.rest := by
  obtain ⟨_, _, hahead, h⟩ := bind_eq_ok.mp h
  cases hahead
  cases hline : lineCommentLength? c.rest with
  | none =>
      rw [hline] at h
      cases h
  | some n =>
      rw [lineCommentLength?.eq_def] at hline
      split at hline
      · rename_i hrest
        rw [hrest]
        exact ends_of_head? (by decide)
      · rename_i hrest
        rw [hrest]
        exact ends_of_head? (by decide)
      · cases hline

theorem ends_of_trailingComment {value : Unit} (h : trailingComment c = .ok (value, d))
    (hends : Ends d.rest) : Ends c.rest := by
  obtain ⟨_, c₁, hblank, h⟩ := bind_eq_ok.mp h
  refine ends_of_blank hblank ?_
  rw [discard_eq] at h
  split at h
  · rename_i hcomment
    cases h
    rcases optional_eq_ok.mp hcomment with ⟨_, -, hcomment⟩ | ⟨-, rfl, -⟩
    · exact ends_of_lineComment hcomment
    · exact hends
  · cases h

theorem ends_of_structureEnd {value : Unit} (h : structureEnd c = .ok (value, d)) :
    Ends c.rest := by
  obtain ⟨_, c₁, hcomment, h⟩ := bind_eq_ok.mp h
  refine ends_of_trailingComment hcomment ?_
  rcases either_eq_ok.mp h with hnewline | ⟨-, hend⟩
  · exact ends_of_newline hnewline
  · obtain ⟨_, _, hahead, hend⟩ := bind_eq_ok.mp hend
    cases hahead
    cases hrest : c₁.rest with
    | nil => exact fun b hb => absurd hb (by simp)
    | cons b rest =>
        rw [hrest] at hend
        cases hend

/-! ### The values of a body -/

theorem exists_of_mem_chain {α : Type} {p : Parser α} {values : List α} {v : α}
    (h : Chain p c values d) (hp : Advances p) (hv : v ∈ values) :
    ∃ c₁ c₂, c.Reaches c₁ ∧ p c₁ = .ok (v, c₂) := by
  induction h with
  | nil c => cases hv
  | cons hfirst hrest ih =>
      rcases List.mem_cons.mp hv with rfl | hv
      · exact ⟨_, _, .refl _, hfirst⟩
      · obtain ⟨c₁, c₂, hreaches, hrun⟩ := ih hv
        exact ⟨c₁, c₂, (hp _ hfirst).trans hreaches, hrun⟩

theorem isValue_inlineBody {structures : Body} (h : inlineBody nested c = .ok (structures, d)) :
    ∀ e ∈ Body.expressions structures, IsValue nested c e := by
  obtain ⟨item, c₁, hitem, h⟩ := bind_eq_ok.mp h
  obtain ⟨_, c₂, hblank, h⟩ := bind_eq_ok.mp h
  obtain ⟨_, c₃, hbrace, h⟩ := bind_eq_ok.mp h
  cases h
  have hends : Ends c₂.rest := by
    rw [byte_eq_ok hbrace]
    exact ends_of_head? (by decide)
  rcases optional_eq_ok.mp hitem with ⟨item, rfl, hrun⟩ | ⟨rfl, rfl, -⟩
  · obtain ⟨_, c₄, hblank₁, hrun⟩ := bind_eq_ok.mp hrun
    obtain ⟨key, c₅, hkey, hrun⟩ := bind_eq_ok.mp hrun
    obtain ⟨_, c₆, hblank₂, hrun⟩ := bind_eq_ok.mp hrun
    obtain ⟨value, c₇, hvalue, hrun⟩ := bind_eq_ok.mp hrun
    obtain ⟨_, c₈, hblank₃, hrun⟩ := bind_eq_ok.mp hrun
    cases hrun
    intro e he
    obtain rfl : e = value := by simpa [Body.expressions, Structure.expressions] using he
    exact ⟨c₆, c₇, ((advances_blank c hblank₁).trans (advances_ident c₄ hkey)).trans
      (advances_blank c₅ hblank₂), hvalue, ends_of_blank hblank₃ (ends_of_blank hblank hends)⟩
  · intro e he
    simp [Body.expressions] at he

/-- The values of what a parser for bodies gives are read by it. -/
def GivesValues (nested : Nested) (p : Parser Body) : Prop :=
  ∀ ⦃c d structures⦄, p c = .ok (structures, d) →
    ∀ e ∈ Body.expressions structures, IsValue nested c e

theorem isValue_blockBody {body : Parser Body} (hbody : GivesValues nested body) :
    GivesValues nested (blockBody nested body) := by
  intro c d structures h
  obtain ⟨_, c₁, hbrace, h⟩ := bind_eq_ok.mp h
  obtain ⟨opening, c₂, hopening, h⟩ := bind_eq_ok.mp h
  have hreaches := (advances_byte _ c hbrace).trans
    (Advances.optional (advances_trailingComment.bind fun _ => advances_newline) c₁ hopening)
  split at h
  · obtain ⟨inner, c₃, hinner, h⟩ := bind_eq_ok.mp h
    obtain ⟨_, c₄, -, h⟩ := bind_eq_ok.mp h
    cases h
    exact fun e he => (hbody hinner e he).behind hreaches
  · exact fun e he => (isValue_inlineBody h e he).behind hreaches

theorem isValue_bodyItem {body : Parser Body} (hbody : GivesValues nested body) {item : Structure}
    (h : bodyItem nested body c = .ok (item, d)) (hends : Ends d.rest) :
    ∀ e ∈ item.expressions, IsValue nested c e := by
  obtain ⟨name, c₁, hname, hrun⟩ := bind_eq_ok.mp h
  obtain ⟨_, c₂, hblank, hrun⟩ := bind_eq_ok.mp hrun
  obtain ⟨_, _, hahead, hrun⟩ := bind_eq_ok.mp hrun
  cases hahead
  have hreaches := (advances_ident c hname).trans (advances_blank c₁ hblank)
  split at hrun
  · obtain ⟨value, c₃, hvalue, hrun⟩ := bind_eq_ok.mp hrun
    cases hrun
    intro e he
    obtain rfl : e = value := by simpa [Structure.expressions] using he
    exact ⟨c₂, d, hreaches, hvalue, hends⟩
  · obtain ⟨labels, c₃, hlabels, hrun⟩ := bind_eq_ok.mp hrun
    obtain ⟨inner, c₄, hinner, hrun⟩ := bind_eq_ok.mp hrun
    cases hrun
    have hlabels := Advances.many (advances_label.bind fun label => advances_blank.bind fun _ =>
      advances_pure label) c₂ hlabels
    exact fun e he => (isValue_blockBody hbody hinner e he).behind (hreaches.trans hlabels)

theorem givesValues_body (hn : nested.Advances) (depth : Nat) :
    GivesValues nested (body nested depth) := by
  induction depth with
  | zero =>
      intro c d structures h
      cases h
  | succ depth ih =>
      intro c d structures h
      obtain ⟨items, c₁, hitems, h⟩ := bind_eq_ok.mp h
      obtain ⟨_, c₂, -, h⟩ := bind_eq_ok.mp h
      obtain ⟨_, c₃, -, h⟩ := bind_eq_ok.mp h
      cases h
      intro e he
      obtain ⟨item, hitem, he⟩ := mem_bodyExpressions.mp he
      have hadvances : Advances (do
          blankLines
          let item ← bodyItem nested (body nested depth)
          structureEnd
          return item) :=
        advances_blankLines.bind fun _ => (advances_bodyItem hn (advances_body hn depth)).bind
          fun _ => advances_structureEnd.bind fun _ => advances_pure _
      obtain ⟨c₄, c₅, hreaches, hrun⟩ := exists_of_mem_chain (chain_of_many hitems) hadvances hitem
      obtain ⟨_, c₆, hblank, hrun⟩ := bind_eq_ok.mp hrun
      obtain ⟨item', c₇, hread, hrun⟩ := bind_eq_ok.mp hrun
      obtain ⟨_, c₈, hend, hrun⟩ := bind_eq_ok.mp hrun
      cases hrun
      exact (isValue_bodyItem ih hread (ends_of_structureEnd hend) e he).behind
        (hreaches.trans (advances_blankLines c₄ hblank))

/-! ### The text of a value -/

/-- A text that no character of several bytes goes beyond the end of. -/
abbrev EndsAscii (text : Bytes) : Prop := ∀ b ∈ text.getLast?, b < 0x80

theorem EndsAscii.append {front back : Bytes} (hfront : EndsAscii front) (hback : EndsAscii back) :
    EndsAscii (front ++ back) := by
  intro b hb
  rw [List.getLast?_append] at hb
  cases hlast : back.getLast? with
  | none => exact hfront b (by simpa [hlast] using hb)
  | some e => exact hback b (by simpa [hlast] using hb)

theorem endsAscii_concat (front : Bytes) {b : UInt8} (hb : b < 0x80) :
    EndsAscii (front ++ [b]) := by
  intro e he
  obtain rfl : b = e := by simpa using he
  exact hb

theorem take_closeLength? {text : Bytes} {n : Nat} (h : closeLength? text = some n) :
    ∃ front, text.take n = front ++ [Byte.slash] := by
  induction text generalizing n with
  | nil => cases h
  | cons b rest ih =>
      by_cases hend : b = Byte.star ∧ rest.head? = some Byte.slash
      · obtain ⟨rfl, hslash⟩ := hend
        obtain ⟨rest, rfl⟩ := List.head?_eq_some_iff.mp hslash
        cases h
        exact ⟨[Byte.star], rfl⟩
      · rw [closeLength?_cons b rest hend] at h
        obtain ⟨m, hm, rfl⟩ := Option.map_eq_some_iff.mp h
        obtain ⟨front, hfront⟩ := ih hm
        exact ⟨b :: front, by rw [List.take_succ_cons, hfront, List.cons_append]⟩

theorem endsAscii_blankPiece (text : Bytes) : EndsAscii (text.take (blankPiece false text)) := by
  cases text with
  | nil => exact fun b hb => absurd hb (by simp)
  | cons b rest =>
      rw [blankPiece]
      split
      · rename_i hb
        exact endsAscii_concat [] (by rcases hb with rfl | rfl <;> decide)
      · rw [if_neg (by simp)]
        cases hblock : blockCommentLength? (b :: rest) with
        | none => exact fun b hb => absurd hb (by simp)
        | some n =>
            unfold blockCommentLength? at hblock
            split at hblock
            · rename_i hrest
              obtain ⟨rfl, rfl⟩ := List.cons.inj hrest
              obtain ⟨m, hm, rfl⟩ := Option.map_eq_some_iff.mp hblock
              obtain ⟨front, hfront⟩ := take_closeLength? hm
              rw [List.take_succ_cons, List.take_succ_cons, hfront]
              exact endsAscii_concat (Byte.slash :: Byte.star :: front) (by decide)
            · cases hblock

theorem endsAscii_blankLength (fuel text : Bytes) :
    EndsAscii (text.take (blankLength false fuel text)) := by
  induction fuel generalizing text with
  | nil => exact fun b hb => absurd hb (by simp [blankLength])
  | cons b fuel ih =>
      rw [blankLength_cons]
      split
      · exact fun b hb => absurd hb (by simp)
      · rw [List.take_add]
        exact (endsAscii_blankPiece text).append (ih _)

theorem blank_endsAscii {value : Unit} (h : blank c = .ok (value, d)) :
    ∃ front, c.rest = front ++ d.rest ∧ d.pos = c.pos + front.length ∧ EndsAscii front := by
  rw [blank, separator_eq] at h
  cases h
  refine ⟨c.rest.take (blankLength false c.rest c.rest), (List.take_append_drop _ _).symm, ?_,
    endsAscii_blankLength _ _⟩
  rw [List.length_take_of_le (blankLength_le _ _ _)]

/-- How the value of an attribute is read: what its text is, and what is behind it. -/
structure IsRead (source : Bytes) (e : Expr) (text : Bytes) (c d : Cursor) : Prop where
  run : (nestedIn source).expr false c = .ok (e, d)
  rest : c.rest = text ++ d.rest
  ends : Ends d.rest
  span : e.span = some ⟨c.pos, d.pos⟩
  slice : Span.slice? ⟨c.pos, d.pos⟩ source = some text

theorem slice?_append (front text behind : Bytes) :
    Span.slice? ⟨front.length, front.length + text.length⟩ (front ++ (text ++ behind)) =
      some text := by
  simp [Span.slice?]

/-- In front of a value there is a byte of ASCII, and behind it there is one or nothing. -/
theorem exists_encode {source : String} {front text behind : Bytes}
    (h : encode source = front ++ (text ++ behind)) (hfront : EndsAscii front)
    (hends : Ends behind) : ∃ inside : String, text = encode inside := by
  have htext : ∀ chars, text = charBytes chars → ∃ inside : String, text = encode inside :=
    fun chars hchars => ⟨String.ofList chars, by rw [hchars, encode, String.toList_ofList]⟩
  have hfront : ∃ inside, text ++ behind = charBytes inside := by
    cases hlast : front.getLast? with
    | none =>
        obtain rfl := List.getLast?_eq_none_iff.mp hlast
        exact ⟨source.toList, h.symm⟩
    | some b =>
        obtain ⟨front', rfl⟩ := List.getLast?_eq_some_iff.mp hlast
        rw [List.append_assoc] at h
        exact (charBytes_split_ascii (hfront b hlast) h).2
  obtain ⟨inside, hinside⟩ := hfront
  cases behind with
  | nil => exact htext inside (by rw [← hinside, List.append_nil])
  | cons b behind =>
      have hall : ∀ b ∈ valueEnds, b < 0x80 := forall_mem_of_all rfl
      obtain ⟨chars, hchars⟩ := (charBytes_split_ascii (hall b (hends b rfl)) hinside.symm).1
      exact htext chars hchars

/-- A value of a document is read from a text of its own within that of the document. -/
theorem exists_isRead {source : String} {structures : Body}
    (hparse : document? (encode source) = some structures) (he : e ∈ Body.expressions structures) :
    ∃ (text : String) (c d : Cursor), IsRead (encode source) e (encode text) c d := by
  have hn : (nestedIn (encode source)).Advances := advances_nestedTo _
  unfold document? whole? at hparse
  split at hparse
  · rename_i value c₀ hbody
    split at hparse
    · cases hparse
      obtain ⟨c₁, d, ⟨read, hread, hpos⟩, hvalue, hends⟩ := givesValues_body hn _ hbody e he
      obtain ⟨_, c₂, hequals, hrun⟩ := bind_eq_ok.mp hvalue
      obtain ⟨_, c, hblank, hrun⟩ := bind_eq_ok.mp hrun
      obtain ⟨equals, hequals₁, hpos₁⟩ := advances_byte _ c₁ hequals
      obtain ⟨gap, hgap, hpos₂, hascii⟩ := blank_endsAscii hblank
      obtain ⟨text, htext, hpos₃⟩ := hn.expr false c hrun
      obtain rfl : equals = [Byte.equals] := by
        have hboth := hequals₁.symm.trans (byte_eq_ok hequals)
        exact List.append_cancel_right (hboth.trans (List.singleton_append).symm)
      have hsource : encode source = (read ++ [Byte.equals] ++ gap) ++ (text ++ d.rest) := by
        rw [← htext, List.append_assoc, ← hgap, List.append_assoc, ← hequals₁]
        exact hread
      have hlength : c.pos = (read ++ [Byte.equals] ++ gap).length := by
        rw [hpos₂, hpos₁, hpos, List.length_append, List.length_append, Nat.zero_add]
      have hfront : EndsAscii (read ++ [Byte.equals] ++ gap) :=
        (endsAscii_concat read (by decide)).append hascii
      obtain ⟨inside, rfl⟩ := exists_encode hsource hfront hends
      refine ⟨inside, c, d, hrun, htext, hends, places_expr _ false hrun, ?_⟩
      rw [hpos₃, hlength, hsource]
      exact slice?_append _ _ _
    · cases hparse
  · cases hparse

end

end Grammar

end HclToJson
