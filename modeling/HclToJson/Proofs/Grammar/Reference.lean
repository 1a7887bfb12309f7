import HclToJson.Proofs.Grammar.Operands
import HclToJson.Proofs.Syntax.Bare

namespace HclToJson.Grammar

open HclToJson.Parser

/-- A whole number that starts with a zero only if it is one. -/
abbrev Index := { numeral : Numeral // numeral.first = Byte.zero → numeral.others = [] }

/-- What a reference may have between brackets. -/
inductive FixedKey
  | numeral (numeral : Numeral)
  /-- A string of printable characters, with no two spaces in a row. -/
  | string (content : Bytes) (h : ∀ b ∈ content, Printable b)
      (hspaces : ¬ [Byte.space, Byte.space] <:+: content)

namespace FixedKey

def bytes : FixedKey → Bytes
  | numeral n => n.bytes
  | string content .. => quoted content

def bare : FixedKey → Expr
  | numeral n => .number .nowhere (.ofInt n.value)
  | string content .. => .string .nowhere (Text.ofBytes content)

end FixedKey

inductive Selector
  /-- `.name` -/
  | name (gap : Gap) (name : Name)
  /-- `.0` -/
  | element (gap : Gap) (index : Index)
  /-- `[key]` -/
  | key (ahead : Gap) (key : FixedKey) (behind : Gap)

namespace Selector

def bytes : Selector → Bytes
  | name gap n => Byte.dot :: (gap.bytes ++ n.bytes)
  | element gap index => Byte.dot :: (gap.bytes ++ index.val.bytes)
  | key ahead k behind =>
      Byte.openBracket ::
        (ahead.bytes ++ (k.bytes ++ (behind.bytes ++ [Byte.closeBracket])))

def bare : Selector → Step
  | name _ n => .attribute .nowhere (Text.ofBytes n.bytes)
  | element _ index => .element .nowhere index.val.value
  | key _ k _ => .index .nowhere k.bare

end Selector

/-- A selector behind blanks that stay on their line. -/
structure Access where
  before : Line
  selector : Selector

def Access.bytes (access : Access) : Bytes := access.before.bytes ++ access.selector.bytes

abbrev Path := List Access

def Path.bytes (path : Path) : Bytes := path.flatMap Access.bytes

def Path.bare (path : Path) : List Step := path.map (·.selector.bare)

/-- A variable that is not one of the literals, with a path behind it. -/
structure Reference where
  root : Name
  root_ne : Text.ofBytes root.bytes ∉ ["null", "true", "false"]
  path : Path

namespace Reference

def bytes (ref : Reference) : Bytes := ref.root.bytes ++ ref.path.bytes

def bare (ref : Reference) : Expr :=
  if ref.path.isEmpty then .var .nowhere (Text.ofBytes ref.root.bytes)
  else .traversal .nowhere (.var .nowhere (Text.ofBytes ref.root.bytes)) ref.path.bare

end Reference

theorem Path.bytes_cons (access : Access) (path : Path) :
    Path.bytes (access :: path) =
      access.before.bytes ++ (access.selector.bytes ++ Path.bytes path) := by
  simp [Path.bytes, Access.bytes]

/-! ### Keys and selectors -/

theorem FixedKey.exists_head (key : FixedKey) :
    ∃ b rest, key.bytes = b :: rest ∧ OperandStart b := by
  cases key with
  | numeral numeral => exact ⟨_, _, rfl, Or.inr (Or.inl numeral.first_digit)⟩
  | string content h hspaces => exact ⟨_, _, rfl, by decide⟩

theorem FixedKey.solid (key : FixedKey) (rest : Bytes) : Solid (key.bytes ++ rest) := by
  obtain ⟨b, others, hkey, hb⟩ := key.exists_head
  rw [hkey]
  exact hb.solid _

theorem FixedKey.expr_eq (key : FixedKey) (depth : Nat) (gap : Gap) {rest : Bytes}
    (hrest : Closes rest) (pos : Nat) :
    ∃ e, (nestedTo (depth + 1)).expr false ⟨pos, key.bytes ++ (gap.bytes ++ rest)⟩ =
        .ok (e, ⟨pos + key.bytes.length, gap.bytes ++ rest⟩) ∧ e.bare = key.bare := by
  cases key with
  | numeral numeral =>
      have hends := hrest.endsNumeral gap
      obtain ⟨layout, hprimary, -⟩ := primary_numeral (nestedTo depth) numeral hends pos
      exact ⟨_, expr_of_primary (numeral.unaryOp hends pos) hrest hprimary false, rfl⟩
  | string content h hspaces =>
      have hunary : unaryOp ⟨pos, quoted content ++ (gap.bytes ++ rest)⟩ = .error .miss :=
        (unsigned_cons (b := Byte.quote) (by decide) (by decide) _).unaryOp pos
      obtain ⟨layout, hstring, -⟩ := string_eq (nestedTo depth) (fun b hb => (h b hb).1)
        (gap.bytes ++ rest) pos
      exact ⟨_, expr_of_primary hunary hrest hstring false, rfl⟩

/-- An expression with blanks on both sides, up to what closes it. -/
theorem spaced_bare {nested : Nested} {text : Bytes} {bare : Expr} (before after : Gap)
    {rest : Bytes} {pos : Nat} (hsolid : Solid (text ++ (after.bytes ++ rest))) (hrest : Closes rest)
    (h : ∃ e', nested.expr false ⟨pos + before.bytes.length, text ++ (after.bytes ++ rest)⟩ =
        .ok (e', ⟨pos + before.bytes.length + text.length, after.bytes ++ rest⟩) ∧
      e'.bare = bare) :
    ∃ item, spaced nested ⟨pos, before.bytes ++ (text ++ (after.bytes ++ rest))⟩ =
        .ok (item, ⟨pos + before.bytes.length + text.length + after.bytes.length, rest⟩) ∧
      item.value.bare = bare := by
  obtain ⟨e', hexpr, hbare⟩ := h
  obtain ⟨front, back, span, hwithin⟩ :=
    within_between (blankLines_gap hsolid pos) hexpr (blankLines_gap hrest.solid _)
  refine ⟨_, hwithin, ?_⟩
  rw [Expr.bare_between, hbare]

theorem elementIndex_eq (index : Index) {rest : Bytes}
    (hrest : ∀ b ∈ rest.head?, Byte.isDigit b = false) (pos : Nat) :
    elementIndex ⟨pos, index.val.bytes ++ rest⟩ =
      .ok (index.val.value, ⟨pos + index.val.bytes.length, rest⟩) := by
  obtain ⟨numeral, hzero⟩ := index
  have hlength : (if (numeral.bytes ++ rest).head? = some Byte.zero then 1
      else ((numeral.bytes ++ rest).takeWhile Byte.isDigit).length) = numeral.bytes.length := by
    split
    · rename_i hhead
      have hothers := hzero (Option.some.inj hhead)
      rw [Numeral.bytes, hothers]
      rfl
    · have hdigits : ∀ b ∈ numeral.bytes, Byte.isDigit b = true := by
        intro b hb
        rcases List.mem_cons.mp hb with rfl | hb
        · exact numeral.first_digit
        · exact numeral.others_digits b hb
      rw [takeWhile_append_of_head hdigits hrest]
  have hsmall : decide (Decimal.readNat (Text.decode numeral.bytes) < 0x1_0000_0000_0000_0000) =
      true := decide_eq_true numeral.small
  simp only [elementIndex, bind_eq, ahead_eq, take_eq, hlength, List.take_left, List.drop_left,
    require_eq, hsmall, ↓reduceIte, pure_eq]
  rfl

theorem attributeStep_name (start : Cursor) (name : Name) {rest : Bytes}
    (hrest : ∀ b ∈ rest.head?, Text.isIdentContinue b = false) (pos : Nat) :
    ∃ layout, attributeStep start ⟨pos, name.bytes ++ rest⟩ =
      .ok (.attribute layout (Text.ofBytes name.bytes), ⟨pos + name.bytes.length, rest⟩) := by
  have hopening : Byte.isDigit name.first = false ∧ name.first ≠ Byte.star :=
    Byte.forall_of_lt (p := fun b => Text.isIdentStart b = true ∧ b ≤ 0x7F →
      Byte.isDigit b = false ∧ b ≠ Byte.star) (by decide +kernel) name.first name.first_start
  have hlength : 0 < Text.identLength (name.bytes ++ rest) := by
    rw [Name.bytes, List.cons_append, Text.identLength, if_pos name.first_start.1]
    omega
  have hhead : (name.bytes ++ rest).head? = some name.first := rfl
  simp only [attributeStep, bind_eq, ahead_eq, hhead, hopening, Bool.false_eq_true, ↓reduceIte,
    hlength, name.ident_eq hrest, layoutFrom_eq, pure_eq]
  exact ⟨_, rfl⟩

theorem attributeStep_element (start : Cursor) (index : Index) {rest : Bytes}
    (hrest : ∀ b ∈ rest.head?, Byte.isDigit b = false) (pos : Nat) :
    ∃ layout, attributeStep start ⟨pos, index.val.bytes ++ rest⟩ =
      .ok (.element layout index.val.value, ⟨pos + index.val.bytes.length, rest⟩) := by
  have hstar : index.val.first ≠ Byte.star := by
    intro heq
    have hdigit := index.val.first_digit
    rw [heq] at hdigit
    exact absurd hdigit (by decide)
  have hhead : (index.val.bytes ++ rest).head? = some index.val.first := rfl
  simp only [attributeStep, bind_eq, ahead_eq, hhead, hstar, ↓reduceIte, index.val.first_digit,
    elementIndex_eq index hrest, layoutFrom_eq, pure_eq]
  exact ⟨_, rfl⟩

/-- A text that neither a name nor a number goes on with. -/
abbrev Apart (text : Bytes) : Prop := ∀ b ∈ text.head?, Text.isIdentContinue b = false

theorem Apart.digit {text : Bytes} (h : Apart text) : ∀ b ∈ text.head?, Byte.isDigit b = false := by
  intro b hb
  have hcontinue := h b hb
  rw [Text.isIdentContinue] at hcontinue
  cases hdigit : Byte.isDigit b with
  | false => rfl
  | true => simp [hdigit] at hcontinue

theorem Selector.step_eq (selector : Selector) (depth : Nat) {rest : Bytes} (hrest : Apart rest)
    (pos : Nat) :
    ∃ s, step (nestedTo (depth + 1)) ⟨pos, selector.bytes ++ rest⟩ =
        .ok (s, ⟨pos + selector.bytes.length, rest⟩) ∧
      ∀ others, Expr.bareSteps (s :: others) = selector.bare :: Expr.bareSteps others := by
  cases selector with
  | name gap name =>
      obtain ⟨layout, hstep⟩ := attributeStep_name ⟨pos, (Selector.name gap name).bytes ++ rest⟩
        name hrest (pos + 1 + gap.bytes.length)
      have hlength : pos + 1 + gap.bytes.length + name.bytes.length =
          pos + (Selector.name gap name).bytes.length := by
        simp only [Selector.bytes, List.length_cons, List.length_append]
        omega
      refine ⟨.attribute layout _, ?_, fun others => rfl⟩
      rw [← hlength, ← hstep]
      simp only [step, bind_eq, get_eq, Selector.bytes, List.cons_append, List.append_assoc,
        Parser.flag_eq, ↓reduceIte, blankLines_gap (name.solid rest)]
  | element gap index =>
      obtain ⟨layout, hstep⟩ := attributeStep_element
        ⟨pos, (Selector.element gap index).bytes ++ rest⟩ index hrest.digit
        (pos + 1 + gap.bytes.length)
      have hlength : pos + 1 + gap.bytes.length + index.val.bytes.length =
          pos + (Selector.element gap index).bytes.length := by
        simp only [Selector.bytes, List.length_cons, List.length_append]
        omega
      refine ⟨.element layout _, ?_, fun others => rfl⟩
      rw [← hlength, ← hstep]
      simp only [step, bind_eq, get_eq, Selector.bytes, List.cons_append, List.append_assoc,
        Parser.flag_eq, ↓reduceIte, blankLines_gap (index.val.solid rest)]
  | key ahead key behind =>
      have hclose : Closes (Byte.closeBracket :: rest) := closes_cons (by simp) rest
      obtain ⟨item, hspaced, hbare⟩ := spaced_bare ahead behind (key.solid _) hclose
        (key.expr_eq depth behind hclose (pos + 1 + ahead.bytes.length))
      obtain ⟨b, others, hhead, hb⟩ := key.exists_head
      have hnext : ∀ text, (key.bytes ++ text).head? ≠ some Byte.star := by
        intro text hstar
        rw [hhead] at hstar
        obtain rfl : b = Byte.star := Option.some.inj hstar
        exact absurd hb (by decide)
      have hdot : ∀ text, (Cursor.mk pos (Byte.openBracket :: text)).rest.head? ≠ some Byte.dot := by
        intro text
        rw [List.head?_cons]
        decide
      have hlength : pos + 1 + ahead.bytes.length + key.bytes.length +
          behind.bytes.length + 1 = pos + (Selector.key ahead key behind).bytes.length := by
        simp only [Selector.bytes, List.length_cons, List.length_append, List.length_nil]
        omega
      rw [← hlength]
      simp only [step, bind_eq, get_eq, Selector.bytes, List.cons_append, List.append_assoc,
        List.nil_append, flag_of_ne (hdot _), Bool.false_eq_true, ↓reduceIte, byte_eq, indexStep,
        nextToken_gap (key.solid _), hnext, hspaced, must_eq, layoutFrom_eq, pure_eq]
      refine ⟨_, rfl, fun others => ?_⟩
      rw [Expr.bareSteps, hbare]
      rfl

/-! ### Paths -/

/-- A selector opens with a dot, behind which there is another byte, or with a bracket. -/
theorem Selector.exists_head (selector : Selector) :
    ∃ b c rest, selector.bytes = b :: c :: rest ∧
      ((b = Byte.dot ∧ c ≠ Byte.dot) ∨ b = Byte.openBracket) := by
  have hgap : ∀ (gap : Gap) (first : UInt8) (others : Bytes), first ≠ Byte.dot →
      ∃ c rest, gap.bytes ++ first :: others = c :: rest ∧ c ≠ Byte.dot := by
    intro gap first others hfirst
    have hdot : ∀ b ∈ (gap.bytes ++ first :: others).head?, b ≠ Byte.dot :=
      gap.forall_head (forall_mem_of_all rfl) fun b hb => by
        obtain rfl : first = b := by simpa using hb
        exact hfirst
    cases htext : gap.bytes ++ first :: others with
    | nil => simp at htext
    | cons c rest => exact ⟨c, rest, rfl, hdot c (by rw [htext]; rfl)⟩
  have hword : ∀ b, OperandStart b → b ≠ Byte.dot := by
    rintro b hb rfl
    exact absurd hb (by decide)
  cases selector with
  | name gap name =>
      obtain ⟨c, rest, htext, hc⟩ := hgap gap name.first name.others
        (hword _ (Or.inl name.first_start))
      exact ⟨Byte.dot, c, rest, congrArg (Byte.dot :: ·) htext, Or.inl ⟨rfl, hc⟩⟩
  | element gap index =>
      obtain ⟨c, rest, htext, hc⟩ := hgap gap index.val.first index.val.others
        (hword _ (Or.inr (Or.inl index.val.first_digit)))
      exact ⟨Byte.dot, c, rest, congrArg (Byte.dot :: ·) htext, Or.inl ⟨rfl, hc⟩⟩
  | key ahead key behind =>
      obtain ⟨first, others, hkey, hfirst⟩ := key.exists_head
      obtain ⟨c, rest, htext, -⟩ := hgap ahead first
        (others ++ (behind.bytes ++ [Byte.closeBracket])) (hword _ hfirst)
      refine ⟨Byte.openBracket, c, rest, ?_, Or.inr rfl⟩
      rw [Selector.bytes, hkey, List.cons_append, htext]

theorem Selector.solid (selector : Selector) (rest : Bytes) : Solid (selector.bytes ++ rest) := by
  obtain ⟨b, c, others, hbytes, hb⟩ := selector.exists_head
  intro d hd
  obtain rfl : b = d := by simpa [hbytes] using hd
  rcases hb with ⟨rfl, -⟩ | rfl <;> decide

theorem Selector.apart (selector : Selector) (rest : Bytes) : Apart (selector.bytes ++ rest) := by
  obtain ⟨b, c, others, hbytes, hb⟩ := selector.exists_head
  intro d hd
  obtain rfl : b = d := by simpa [hbytes] using hd
  rcases hb with ⟨rfl, -⟩ | rfl <;> decide

theorem Selector.opensStep (selector : Selector) (rest : Bytes) :
    opensStep (selector.bytes ++ rest) = true ∧
      endsExpression (selector.bytes ++ rest) = false := by
  obtain ⟨b, c, others, hbytes, hb⟩ := selector.exists_head
  rw [hbytes, List.cons_append, List.cons_append]
  rcases hb with ⟨rfl, hc⟩ | rfl
  · refine ⟨rfl, ?_⟩
    have hslash : ¬ Byte.slash = Byte.dot := by decide
    simp [endsExpression, List.isPrefixOf, hslash, Ne.symm hc]
  · exact ⟨rfl, rfl⟩

theorem Path.length_le (path : Path) : path.length ≤ path.bytes.length := by
  induction path with
  | nil => exact Nat.le_refl 0
  | cons access path ih =>
      obtain ⟨b, c, others, hbytes, -⟩ := access.selector.exists_head
      rw [Path.bytes_cons, hbytes]
      simp only [List.length_append, List.length_cons]
      omega

/-- Behind each selector of a path stands the next one or the end, with blanks before it. -/
theorem Path.apart (path : Path) (gap : Gap) {rest : Bytes} (hrest : Closes rest) :
    Apart (path.bytes ++ (gap.bytes ++ rest)) := by
  cases path with
  | nil => exact gap.not_continue hrest.not_continue
  | cons access path =>
      rw [Path.bytes_cons, List.append_assoc, List.append_assoc]
      exact Gap.not_continue access.before.val (access.selector.apart _)

theorem Access.separator_eq (access : Access) (newlines : Bool) (rest : Bytes) (pos : Nat) :
    separator newlines ⟨pos, access.before.bytes ++ (access.selector.bytes ++ rest)⟩ =
      .ok (⟨⟩, ⟨pos + access.before.bytes.length, access.selector.bytes ++ rest⟩) := by
  refine separator_gap (fun blank hblank => ?_)
    ((access.selector.solid rest).blankPiece newlines) pos
  rw [Blank.passes, access.before.property blank hblank, Bool.or_true]

theorem laterSteps_path (path : Path) (newlines : Bool) (depth : Nat) (gap : Gap) {rest : Bytes}
    (hrest : Closes rest) {fuel : Bytes} (hfuel : path.length ≤ fuel.length) (pos : Nat) :
    ∃ steps, laterSteps (nestedTo (depth + 1)) newlines fuel
        ⟨pos, path.bytes ++ (gap.bytes ++ rest)⟩ =
        .ok (steps, ⟨pos + path.bytes.length, gap.bytes ++ rest⟩) ∧
      Expr.bareSteps steps = path.bare := by
  induction path generalizing fuel pos with
  | nil =>
      refine ⟨[], ?_, rfl⟩
      cases fuel with
      | nil => rfl
      | cons b fuel =>
          obtain ⟨pos', text, hseparator, hnone⟩ := separator_noOperator newlines gap hrest pos
          have hbytes : Path.bytes [] ++ (gap.bytes ++ rest) = gap.bytes ++ rest := rfl
          simp only [laterSteps, bind_eq, get_eq, hbytes, hseparator, ahead_eq, hnone.step,
            Bool.false_eq_true, ↓reduceIte, set_eq, pure_eq]
          rfl
  | cons access path ih =>
      obtain ⟨b, fuel, rfl⟩ := List.exists_cons_of_length_pos (Nat.lt_of_lt_of_le (by simp) hfuel)
      obtain ⟨s, hstep, hbare⟩ := access.selector.step_eq depth (Path.apart path gap hrest)
        (pos + access.before.bytes.length)
      obtain ⟨steps, hsteps, hothers⟩ := ih (Nat.le_of_succ_le_succ hfuel)
        (pos + access.before.bytes.length + access.selector.bytes.length)
      have hlength : pos + (Path.bytes (access :: path)).length = pos + access.before.bytes.length +
          access.selector.bytes.length + (Path.bytes path).length := by
        rw [Path.bytes_cons, List.length_append, List.length_append]
        omega
      refine ⟨s :: steps, ?_, ?_⟩
      · rw [hlength, Path.bytes_cons, List.append_assoc, List.append_assoc]
        simp only [laterSteps, bind_eq, get_eq, access.separator_eq, ahead_eq,
          (access.selector.opensStep _).1, ↓reduceIte, hstep, hsteps, pure_eq]
      · rw [hbare, hothers]
        rfl

/-! ### References -/

theorem named_var (nested : Nested) {name : Name}
    (hname : Text.ofBytes name.bytes ∉ ["null", "true", "false"]) (gap : Gap) {rest : Bytes}
    (hsolid : Solid rest) (hapart : Apart rest) (hparen : rest.head? ≠ some Byte.openParen)
    (pos : Nat) :
    ∃ layout, named nested ⟨pos, name.bytes ++ (gap.bytes ++ rest)⟩ =
        .ok (.var layout (Text.ofBytes name.bytes), ⟨pos + name.bytes.length, gap.bytes ++ rest⟩) ∧
      layout.span = some ⟨pos, pos + name.bytes.length⟩ := by
  have hident := name.ident_eq (gap.not_continue hapart) pos
  have hmiss : ∀ pos, byte Byte.openParen ⟨pos, rest⟩ = .error .miss := fun pos => byte_miss hparen
  simp only [List.mem_cons, List.not_mem_nil, or_false, not_or] at hname
  simp only [named, bind_eq, get_eq, hident, optional_eq, blankLines_gap hsolid, hmiss,
    Option.isSome_none, Bool.false_eq_true, ↓reduceIte, layoutFrom_eq, hname, pure_eq]
  exact ⟨_, rfl, rfl⟩

theorem Reference.named_eq (ref : Reference) (nested : Nested) (gap : Gap) {rest : Bytes}
    (hrest : Closes rest) (pos : Nat) :
    ∃ layout, named nested ⟨pos, ref.bytes ++ (gap.bytes ++ rest)⟩ =
        .ok (.var layout (Text.ofBytes ref.root.bytes),
          ⟨pos + ref.root.bytes.length, ref.path.bytes ++ (gap.bytes ++ rest)⟩) ∧
      layout.span = some ⟨pos, pos + ref.root.bytes.length⟩ := by
  obtain ⟨root, hroot, path⟩ := ref
  cases path with
  | nil =>
      have hparen : rest.head? ≠ some Byte.openParen := by
        intro hb
        exact absurd (hrest.head _ hb) (by decide)
      simpa [Reference.bytes, Path.bytes] using
        named_var nested hroot gap hrest.solid hrest.not_continue hparen pos
  | cons access path =>
      have hparen : (access.selector.bytes ++ (Path.bytes path ++ (gap.bytes ++ rest))).head? ≠
          some Byte.openParen := by
        obtain ⟨b, c, others, hbytes, hb⟩ := access.selector.exists_head
        rw [hbytes, List.cons_append, List.head?_cons]
        rcases hb with ⟨rfl, -⟩ | rfl <;> decide
      have hvar := named_var nested hroot access.before.val (access.selector.solid _)
        (access.selector.apart _) hparen pos
      simpa [Reference.bytes, Path.bytes_cons] using hvar

theorem traversal_path (access : Access) (path : Path) (newlines : Bool) (depth : Nat) (gap : Gap)
    {rest : Bytes} (hrest : Closes rest) (start : Cursor) (base : Located Expr) (pos : Nat) :
    ∃ layout e steps, traversal (nestedTo (depth + 1)) newlines start base
        ⟨pos, Path.bytes (access :: path) ++ (gap.bytes ++ rest)⟩ =
        .ok (.traversal layout e steps,
          ⟨pos + (Path.bytes (access :: path)).length, gap.bytes ++ rest⟩) ∧
      e.bare = base.value.bare ∧ Expr.bareSteps steps = Path.bare (access :: path) ∧
      layout.span = some ⟨start.pos, pos + (Path.bytes (access :: path)).length⟩ := by
  obtain ⟨s, hstep, hbare⟩ := access.selector.step_eq depth (Path.apart path gap hrest)
    (pos + access.before.bytes.length)
  have hfuel : path.length ≤
      (access.selector.bytes ++ (Path.bytes path ++ (gap.bytes ++ rest))).length := by
    have hpath := Path.length_le path
    simp only [List.length_append]
    omega
  obtain ⟨steps, hsteps, hothers⟩ := laterSteps_path path newlines depth gap hrest hfuel
    (pos + access.before.bytes.length + access.selector.bytes.length)
  have hlength : pos + (Path.bytes (access :: path)).length = pos + access.before.bytes.length +
      access.selector.bytes.length + (Path.bytes path).length := by
    rw [Path.bytes_cons, List.length_append, List.length_append]
    omega
  obtain ⟨hopens, hends⟩ :=
    access.selector.opensStep (Path.bytes path ++ (gap.bytes ++ rest))
  rw [hlength, Path.bytes_cons, List.append_assoc, List.append_assoc]
  simp only [traversal, bind_eq, get_eq, spelling_eq, access.separator_eq, ahead_eq, hopens, hends,
    Bool.not_false, and_self, ↓reduceIte, located_eq, hstep, layoutFrom_eq, hsteps, pure_eq]
  refine ⟨_, _, _, rfl, Expr.bare_followedBy _ _, ?_, rfl⟩
  rw [hbare, hothers]
  rfl

/-- A reference is read up to the blanks behind it. -/
theorem Reference.expr_eq (ref : Reference) (newlines : Bool) (depth : Nat) (gap : Gap)
    {rest : Bytes} (hrest : Closes rest) (pos : Nat) :
    ∃ e, expr (nestedTo (depth + 1)) newlines ⟨pos, ref.bytes ++ (gap.bytes ++ rest)⟩ =
        .ok (e, ⟨pos + ref.bytes.length, gap.bytes ++ rest⟩) ∧
      e.bare = ref.bare ∧ e.span = some ⟨pos, pos + ref.bytes.length⟩ := by
  obtain ⟨layout, hnamed, hspan⟩ := ref.named_eq (nestedTo (depth + 1)) gap hrest pos
  have hbytes : ref.bytes ++ (gap.bytes ++ rest) =
      ref.root.bytes ++ (ref.path.bytes ++ (gap.bytes ++ rest)) := by
    rw [Reference.bytes, List.append_assoc]
  have hmany : many unaryOp ⟨pos, ref.bytes ++ (gap.bytes ++ rest)⟩ =
      .ok ([], ⟨pos, ref.bytes ++ (gap.bytes ++ rest)⟩) := by
    rw [hbytes]
    exact many_of_miss ((ref.root.unsigned _).unaryOp pos)
  have hprimary := hnamed
  rw [hbytes, ← primary_named, ← hbytes] at hprimary
  simp only [expr, bind_eq, get_eq, located_eq, term, hmany, hprimary, List.getLast?_nil, pure_eq]
  obtain ⟨root, hroot, path⟩ := ref
  cases path with
  | nil =>
      have hend : Path.bytes [] ++ (gap.bytes ++ rest) = gap.bytes ++ rest := rfl
      have hroot : (Reference.mk root hroot []).bytes = root.bytes := List.append_nil _
      simp only [hend, traversal_gap _ _ _ _ gap hrest, operation_gap _ _ _ _ gap hrest, hroot]
      exact ⟨_, rfl, rfl, hspan⟩
  | cons access path =>
      obtain ⟨outer, e, steps, htraversal, he, hsteps, houter⟩ :=
        traversal_path access path (newlines || false) depth gap hrest
          ⟨pos, (Reference.mk root hroot (access :: path)).bytes ++ (gap.bytes ++ rest)⟩
          ⟨.var layout (Text.ofBytes root.bytes), pos, pos + root.bytes.length⟩
          (pos + root.bytes.length)
      have hlength : pos + (Reference.mk root hroot (access :: path)).bytes.length =
          pos + root.bytes.length + (Path.bytes (access :: path)).length := by
        rw [Reference.bytes, List.length_append, Nat.add_assoc]
      simp only [htraversal, operation_gap _ _ _ _ gap hrest, hlength]
      refine ⟨_, rfl, ?_, houter⟩
      rw [Expr.bare, he, hsteps]
      rfl

end HclToJson.Grammar
