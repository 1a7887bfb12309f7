import HclToJson.Convert.Expression

namespace HclToJson

/-- A part of a text that a conversion writes. -/
inductive Segment
  | plain (text : String)
  | reference (e : Expr)

namespace Conversion

variable {c : Conversion} {references : List Expr}

def writeSegment (c : Conversion) (marked : Bool) : Segment → String
  | .plain text => text
  | .reference e => if marked then "$\x7b" ++ c.sourceText e ++ "\x7d" else c.sourceText e

def write (c : Conversion) (marked : Bool) (segments : List Segment) : String :=
  String.join (segments.map (c.writeSegment marked))

/-- Both texts are written from the same segments, the first with bare and the second with marked
references, all of them from the given ones. -/
def Marks (c : Conversion) (references : List Expr) (bare marked : String) : Prop :=
  ∃ segments, (∀ e, Segment.reference e ∈ segments → e.isReference = true ∧ e ∈ references) ∧
    bare = c.write false segments ∧ marked = c.write true segments

theorem write_append (marked : Bool) (front back : List Segment) :
    c.write marked (front ++ back) = c.write marked front ++ c.write marked back := by
  simp [write]

namespace Marks

theorem plain (text : String) : Marks c references text text := by
  refine ⟨[.plain text], ?_, ?_, ?_⟩
  · simp
  · simp [write, writeSegment]
  · simp [write, writeSegment]

theorem reference {e : Expr} (hreference : e.isReference = true) (h : e ∈ references) :
    Marks c references (c.sourceText e) ("$\x7b" ++ c.sourceText e ++ "\x7d") := by
  refine ⟨[.reference e], ?_, ?_, ?_⟩
  · simpa using ⟨hreference, h⟩
  · simp [write, writeSegment]
  · simp [write, writeSegment]

theorem append {bare marked bare' marked' : String} (h : Marks c references bare marked)
    (h' : Marks c references bare' marked') :
    Marks c references (bare ++ bare') (marked ++ marked') := by
  obtain ⟨front, hfront, rfl, rfl⟩ := h
  obtain ⟨back, hback, rfl, rfl⟩ := h'
  refine ⟨front ++ back, ?_, (write_append false front back).symm,
    (write_append true front back).symm⟩
  intro e hmem
  rcases List.mem_append.mp hmem with hmem | hmem
  · exact hfront e hmem
  · exact hback e hmem

/-- A text without marks is empty only if the one with marks is, unless a reference has no text. -/
theorem eq_empty_iff {bare marked : String} (hne : ∀ e ∈ references, c.sourceText e ≠ "")
    (h : Marks c references bare marked) : bare = "" ↔ marked = "" := by
  obtain ⟨segments, hsegments, rfl, rfl⟩ := h
  induction segments with
  | nil => rfl
  | cons segment rest ih =>
      have hrest := ih fun e hmem => hsegments e (List.mem_cons_of_mem segment hmem)
      cases segment with
      | plain text => simpa [write, writeSegment] using fun _ => hrest
      | reference e =>
          have htext := hne e (hsegments e List.mem_cons_self).2
          simp [write, writeSegment, htext]

/-- Whether a choice has an `else` branch does not depend on the marks in it. -/
theorem choiceText {yes no yes' no' : String} (hne : ∀ e ∈ references, c.sourceText e ≠ "")
    (condition : String) (hyes : Marks c references yes yes') (hno : Marks c references no no') :
    Marks c references (Conversion.choiceText condition yes no)
      (Conversion.choiceText condition yes' no') := by
  have hempty : no.isEmpty = no'.isEmpty := by
    rw [Bool.eq_iff_iff, String.isEmpty_iff, String.isEmpty_iff]
    exact hno.eq_empty_iff hne
  have helse : Marks c references (if no.isEmpty then "" else "%\x7belse\x7d" ++ no)
      (if no'.isEmpty then "" else "%\x7belse\x7d" ++ no') := by
    rw [← hempty]
    split
    · exact plain ""
    · exact (plain _).append hno
  unfold Conversion.choiceText
  exact (((plain _).append hyes).append helse).append (plain _)

theorem repetitionText {body body' : String} (loop : Loop) (collection : String)
    (hbody : Marks c references body body') :
    Marks c references (Conversion.repetitionText loop collection body)
      (Conversion.repetitionText loop collection body') := by
  unfold Conversion.repetitionText
  exact ((plain _).append hbody).append (plain _)

end Marks

mutual

/-- Two values are alike but for the marks in their strings and keys. -/
def ValueMarks (c : Conversion) (references : List Expr) : Value → Value → Prop
  | .null, .null => True
  | .boolean a, .boolean b => a = b
  | .integer a, .integer b => a = b
  | .decimal a, .decimal b => a = b
  | .string bare, .string marked => Marks c references bare marked
  | .array as, .array bs => ItemsMark c references as bs
  | .object as, .object bs => EntriesMark c references as bs
  | _, _ => False

def ItemsMark (c : Conversion) (references : List Expr) : List Value → List Value → Prop
  | [], [] => True
  | a :: as, b :: bs => ValueMarks c references a b ∧ ItemsMark c references as bs
  | _, _ => False

def EntriesMark (c : Conversion) (references : List Expr) :
    List (String × Value) → List (String × Value) → Prop
  | [], [] => True
  | (bare, a) :: as, (marked, b) :: bs =>
      Marks c references bare marked ∧ ValueMarks c references a b ∧ EntriesMark c references as bs
  | _, _ => False

end

mutual

theorem ValueMarks.refl : (value : Value) → ValueMarks c references value value
  | .null => trivial
  | .boolean _ => rfl
  | .integer _ => rfl
  | .decimal _ => rfl
  | .string text => Marks.plain text
  | .array items => ItemsMark.refl items
  | .object entries => EntriesMark.refl entries

theorem ItemsMark.refl : (items : List Value) → ItemsMark c references items items
  | [] => trivial
  | item :: rest => ⟨ValueMarks.refl item, ItemsMark.refl rest⟩

theorem EntriesMark.refl :
    (entries : List (String × Value)) → EntriesMark c references entries entries
  | [] => trivial
  | (key, value) :: rest => ⟨Marks.plain key, ValueMarks.refl value, EntriesMark.refl rest⟩

end

end Conversion

/-- Two computations end alike: both with the same error, or both with results that are related. -/
def EndAlike (R : α → β → Prop) : Except ε α → Except ε β → Prop
  | .ok a, .ok b => R a b
  | .error e, .error e' => e = e'
  | _, _ => False

namespace EndAlike

variable {R : α → β → Prop} {S : γ → δ → Prop}

theorem pure {a : α} {b : β} (h : R a b) :
    EndAlike R (Pure.pure a : Except ε α) (Pure.pure b : Except ε β) := h

theorem refl (x : Except ε α) : EndAlike Eq x x := by
  cases x <;> rfl

theorem bind {x : Except ε α} {y : Except ε β} {f : α → Except ε γ} {g : β → Except ε δ}
    (h : EndAlike R x y) (hnext : ∀ a b, R a b → EndAlike S (f a) (g b)) :
    EndAlike S (x >>= f) (y >>= g) := by
  cases x with
  | error e =>
      cases y with
      | error e' => exact h
      | ok b => exact h.elim
  | ok a =>
      cases y with
      | error e' => exact h.elim
      | ok b => exact hnext a b h

theorem mono {R' : α → β → Prop} {x : Except ε α} {y : Except ε β} (h : EndAlike R x y)
    (hmono : ∀ a b, x = .ok a → y = .ok b → R a b → R' a b) : EndAlike R' x y := by
  cases x with
  | error e =>
      cases y with
      | error e' => exact h
      | ok b => exact h.elim
  | ok a =>
      cases y with
      | error e' => exact h.elim
      | ok b => exact hmono a b rfl rfl h

theorem bind_same (x : Except ε α) {f : α → Except ε γ} {g : α → Except ε δ}
    (hnext : ∀ a, x = .ok a → EndAlike S (f a) (g a)) : EndAlike S (x >>= f) (x >>= g) := by
  cases x with
  | error e => rfl
  | ok a => exact hnext a rfl

end EndAlike

end HclToJson
