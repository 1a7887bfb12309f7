import HclToJson.Proofs.Body.Levels
import HclToJson.Proofs.Document.Outcomes

namespace HclToJson

/-- The same error with a limit one level higher. -/
def ConvertError.raised : ConvertError → ConvertError
  | depthExceeded limit => depthExceeded (limit + 1)
  | e => e

namespace Conversion

/-- A start one level further down, with a limit that is one level higher, makes no difference but to
the limit that an error tells. -/
def Shifts (_ : Nat) (run : Leveled α) : Prop :=
  ∀ limit depth, run (limit + 1) (depth + 1) = (run limit depth).mapError ConvertError.raised

namespace Shifts

theorem const {x : Except ConvertError α} (hx : InLimit x) : Shifts 0 fun _ _ => x := by
  intro limit depth
  cases x with
  | ok value => rfl
  | error e =>
      cases e with
      | mergeConflict path => rfl
      | evaluation text cause context => rfl
      | depthExceeded limit => exact absurd rfl (hx limit)

theorem bind {n m : Nat} {x : Leveled α} {f : α → Leveled β} (hx : Shifts n x)
    (hf : ∀ a, Shifts m (f a)) :
    Shifts (max n m) fun limit depth => x limit depth >>= fun a => f a limit depth := by
  intro limit depth
  beta_reduce
  rw [hx limit depth]
  cases x limit depth with
  | error e => rfl
  | ok a => exact hf a limit depth

theorem below {c : Conversion} {n : Nat} {run : Leveled α} (h : Shifts n run) :
    Shifts (n + 1) fun limit depth => (c.limited limit).descend depth >>= run limit := by
  intro limit depth
  beta_reduce
  rw [limited_descend_bind, limited_descend_bind, h limit (depth + 1)]
  simp only [Nat.add_lt_add_iff_right]
  split
  · rfl
  · rfl

theorem law (c : Conversion) : Law c Shifts := ⟨const, bind, below⟩

end Shifts

end Conversion

/-- All structures of a body are attributes that have a value without variables and functions. -/
def Body.Evaluates (structures : Body) : Prop :=
  ∀ item ∈ structures, ∃ key e value, item = .attribute key e ∧ Eval.evaluate e = .ok value

namespace Body.Evaluates

variable {structures rest : Body} {item : Structure}

theorem tail (h : Evaluates (item :: rest)) : Evaluates rest :=
  fun other hmem => h other (List.mem_cons_of_mem item hmem)

theorem faultless (h : Evaluates structures) : Faultless structures := by
  intro key e hmem fault hfault
  obtain ⟨_, _, value, heq, hvalue⟩ := h _ hmem
  cases heq
  rw [hfault] at hvalue
  cases hvalue

end Body.Evaluates

namespace Conversion

open Body

/-- Without blocks, a body is converted to the object of its attributes. -/
theorem body_of_evaluates (c : Conversion) (depth : Nat) {structures : Body}
    (h : Evaluates structures) :
    c.body depth structures = do
      let entries ← c.attributes (← c.descend depth) structures
      return Entries.ofList entries := by
  have hblocks : ∀ (below : Nat) out, c.mergeBlocks below structures out = (out, .ok ()) := by
    intro below out
    induction structures with
    | nil => rfl
    | cons item rest ih =>
        obtain ⟨key, e, _, rfl, -⟩ := h item List.mem_cons_self
        exact ih h.tail
  simp only [body, hblocks]
  rfl

end Conversion

namespace Document

open Body Outcome

variable {c : Conversion} {structures : Body} {outcomes : List Outcome}

/-- A conversion of the attributes ends at the first of the issues that are collected, if there is
one. -/
theorem OutcomesOf.attributes_or_issue (h : OutcomesOf c structures outcomes)
    (hevaluates : Evaluates structures) :
    (issues outcomes = [] ∧ c.attributes 0 structures = .ok (entries outcomes)) ∨
    ∃ key error others, issues outcomes = .conversion key error :: others ∧
      c.attributes 0 structures = .error error := by
  induction h with
  | nil => exact Or.inl ⟨rfl, rfl⟩
  | @cons item o rest others ho _ ih =>
      obtain ⟨key, e, _, rfl, hvalue⟩ := hevaluates item List.mem_cons_self
      simp only [outcome, hvalue] at ho
      simp only [Conversion.attributes]
      cases hexpression : c.expression 0 e with
      | error error =>
          rw [hexpression] at ho
          cases ho
          exact Or.inr ⟨key, error, issues others, rfl, rfl⟩
      | ok value =>
          rw [hexpression] at ho
          cases ho
          rcases ih hevaluates.tail with ⟨hissues, hentries⟩ | ⟨name, error, more, hissues, herror⟩
          · rw [hentries]
            exact Or.inl ⟨hissues, rfl⟩
          · rw [herror]
            exact Or.inr ⟨name, error, more, hissues, rfl⟩

/-- On a body of static attributes, the conversion of the root attributes has no issue if and only if
the conversion of the whole body, with a limit that is one level higher, succeeds. Both then give the
same object, and else the first of the issues is the error. -/
theorem conversions_agree (source : Bytes) (keep : Bool) (limit : Nat) {structures : Body}
    (h : Evaluates structures) :
    ∃ object issues,
      convertAttributes ⟨source, structures⟩ ⟨keep, limit⟩ = .ok (object, issues) ∧
      (issues = [] ↔ ∃ out, convert ⟨source, structures⟩ ⟨keep, limit + 1⟩ = .ok out) ∧
      (∀ out, convert ⟨source, structures⟩ ⟨keep, limit + 1⟩ = .ok out → out = object) ∧
      ∀ error, convert ⟨source, structures⟩ ⟨keep, limit + 1⟩ = .error error →
        ∃ key cause others, issues = .conversion key cause :: others ∧ error = cause.raised := by
  obtain ⟨outcomes, houtcomes⟩ := exists_outcomes (c := ⟨source, keep, limit⟩) h.faultless
  have hattributes : convertAttributes ⟨source, structures⟩ ⟨keep, limit⟩ =
      .ok (Entries.ofList (entries outcomes), issues outcomes) := by
    rw [convertAttributes, outcomes_eq_ok_iff.mpr houtcomes]
    rfl
  have hshift : Conversion.attributes ⟨source, keep, limit + 1⟩ 1 structures =
      (Conversion.attributes ⟨source, keep, limit⟩ 0 structures).mapError ConvertError.raised :=
    (Conversion.Shifts.law ⟨source, keep, limit⟩).attributes structures limit 0
  have hconvert : convert ⟨source, structures⟩ ⟨keep, limit + 1⟩ = do
      let entries ← (Conversion.attributes ⟨source, keep, limit⟩ 0 structures).mapError
        ConvertError.raised
      return Entries.ofList entries := by
    rw [convert, Conversion.body_of_evaluates _ _ h, Conversion.descend_of_lt (Nat.succ_pos limit),
      ← hshift]
    rfl
  refine ⟨_, _, hattributes, ?_⟩
  rcases houtcomes.attributes_or_issue h with ⟨hissues, hentries⟩ |
    ⟨key, cause, others, hissues, herror⟩
  · have hout : convert ⟨source, structures⟩ ⟨keep, limit + 1⟩ =
        .ok (Entries.ofList (entries outcomes)) := by
      rw [hconvert, hentries]
      rfl
    rw [hout, hissues]
    refine ⟨⟨fun _ => ⟨_, rfl⟩, fun _ => rfl⟩, ?_, ?_⟩
    · rintro _ ⟨⟩
      rfl
    · rintro _ ⟨⟩
  · have hout : convert ⟨source, structures⟩ ⟨keep, limit + 1⟩ = .error cause.raised := by
      rw [hconvert, herror]
      rfl
    rw [hout, hissues]
    refine ⟨⟨?_, ?_⟩, ?_, ?_⟩
    · rintro ⟨⟩
    · rintro ⟨_, ⟨⟩⟩
    · rintro _ ⟨⟩
    · rintro _ ⟨⟩
      exact ⟨key, cause, others, rfl, rfl⟩

/-- `a = "x"`, `b = [true]` and `c = { d = null }` -/
def layered : Body :=
  [.attribute "a" (.string .nowhere "x"), .attribute "b" (.array .nowhere [.bool .nowhere true]),
    .attribute "c" (.object .nowhere [.mk .nowhere (.ident "d") (.null .nowhere)])]

/-- With the limit 1 two of the attributes are too deep, and with the limit 2 none is. -/
theorem conversions_agree_layered : Evaluates layered ∧
    (∃ object issues, convertAttributes ⟨[], layered⟩ ⟨false, 1⟩ = .ok (object, issues) ∧
      object = [("a", .string "x")] ∧
      issues = [.conversion "b" (.depthExceeded 1), .conversion "c" (.depthExceeded 1)] ∧
      convert ⟨[], layered⟩ ⟨false, 2⟩ = .error (.depthExceeded 2) ∧
      ∃ key cause others, issues = .conversion key cause :: others ∧
        .depthExceeded 2 = cause.raised) ∧
    ∃ object, convertAttributes ⟨[], layered⟩ ⟨false, 2⟩ = .ok (object, []) ∧
      object = [("a", .string "x"), ("b", .array [.boolean true]), ("c", .object [("d", .null)])] ∧
      convert ⟨[], layered⟩ ⟨false, 3⟩ = .ok object := by
  have hevaluates : Evaluates layered := by
    rintro item hmem
    simp only [layered, List.mem_cons, List.not_mem_nil, or_false] at hmem
    rcases hmem with rfl | rfl | rfl
    · exact ⟨_, _, .string "x", rfl, rfl⟩
    · exact ⟨_, _, .array [.bool true], rfl, rfl⟩
    · exact ⟨_, _, .object [("d", .null)], rfl, rfl⟩
  refine ⟨hevaluates, ?_, ?_⟩
  · obtain ⟨object, issues, hattributes, -, -, hfailure⟩ :=
      conversions_agree [] false 1 hevaluates
    have herror : convert ⟨[], layered⟩ ⟨false, 2⟩ = .error (.depthExceeded 2) := rfl
    have hshallow : convertAttributes ⟨[], layered⟩ ⟨false, 1⟩ = .ok ([("a", .string "x")],
        [.conversion "b" (.depthExceeded 1), .conversion "c" (.depthExceeded 1)]) := rfl
    obtain ⟨hobject, hissues⟩ := Prod.mk.inj (Except.ok.inj (hattributes.symm.trans hshallow))
    exact ⟨object, issues, hattributes, hobject, hissues, herror, hfailure _ herror⟩
  · obtain ⟨object, issues, hattributes, hsuccess, hobject, -⟩ :=
      conversions_agree [] false 2 hevaluates
    have hout : convert ⟨[], layered⟩ ⟨false, 3⟩ = .ok
      [("a", .string "x"), ("b", .array [.boolean true]), ("c", .object [("d", .null)])] := rfl
    obtain rfl := hsuccess.mpr ⟨_, hout⟩
    obtain rfl := hobject _ hout
    exact ⟨_, hattributes, rfl, hout⟩

end Document

end HclToJson
