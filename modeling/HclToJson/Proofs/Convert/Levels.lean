import Mathlib.Tactic.Common
import HclToJson.Proofs.Convert.Depth

namespace HclToJson

namespace Expr

mutual

/-- The levels that an expression needs as a part of a template. -/
def partLevels : Expr → Nat
  | .template _ parts | .heredoc _ _ parts => partsLevels parts + 1
  | .conditional _ _ yes no => max yes.partLevels no.partLevels + 1
  | _ => 1
  termination_by structural e => e

/-- The levels that a template needs: none for its literal parts. -/
def partsLevels : Template → Nat
  | [] => 0
  | .literal _ :: rest => partsLevels rest
  | .interpolation _ _ e :: rest => max e.partLevels (partsLevels rest)
  | .choice _ _ _ _ _ yes no :: rest =>
      max (max (partsLevels yes) (elseLevels no) + 1) (partsLevels rest)
  | .repetition _ _ _ _ _ body :: rest => max (partsLevels body + 1) (partsLevels rest)
  termination_by structural parts => parts

def elseLevels : Option Template → Nat
  | none => 0
  | some parts => partsLevels parts
  termination_by structural parts => parts

end

/-- The levels that the key of an item needs: none if it is a name, a variable or a traversal. -/
def keyLevels : Key → Nat
  | .ident _ | .expr (.var ..) | .expr (.traversal ..) => 0
  | .expr e => e.partLevels

mutual

/-- The levels that an expression needs: one for itself, and those of what is in it. -/
def levels : Expr → Nat
  | .template _ [.interpolation _ _ inner] => inner.levels + 1
  | .template _ parts | .heredoc _ _ parts => partsLevels parts + 1
  | .array _ items => itemsLevels items + 1
  | .object _ items => entriesLevels items + 1
  | _ => 1
  termination_by structural e => e

def itemsLevels : List Expr → Nat
  | [] => 0
  | e :: rest => max e.levels (itemsLevels rest)
  termination_by structural items => items

def entriesLevels : List Item → Nat
  | [] => 0
  | .mk _ key value :: rest => max (keyLevels key) (max value.levels (entriesLevels rest))
  termination_by structural items => items

end

end Expr

namespace Conversion

/-- The same conversion with another limit. -/
def limited (c : Conversion) (limit : Nat) : Conversion :=
  { c with options := { c.options with maxDepth := limit } }

@[simp] theorem sourceText_limited (c : Conversion) (limit : Nat) (e : Expr) :
    (c.limited limit).sourceText e = c.sourceText e := rfl

@[simp] theorem unaryValue_limited (c : Conversion) (limit : Nat) (layout : Layout) (op : UnaryOp)
    (operand : Expr) :
    (c.limited limit).unaryValue layout op operand = c.unaryValue layout op operand := rfl

/-- Conversions from a limit and a depth to start at, which is counted with `δ`. -/
abbrev LeveledBy (δ α : Type) := Nat → δ → Except ConvertError α

abbrev Leveled (α : Type) := LeveledBy Nat α

/-- A conversion gives a value if there are `n` levels up to the limit, and else the error for that. -/
def Exactly (n : Nat) (run : Leveled α) (value : α) : Prop :=
  ∀ limit depth, run limit depth =
    if n ≤ limit - depth then .ok value else .error (.depthExceeded limit)

theorem Exactly.eq_ite {n : Nat} {run : Leveled α} {value : α} (h : Exactly n run value)
    {limit depth : Nat} (hdepth : depth ≤ limit) :
    run limit depth =
      if depth + n ≤ limit then .ok value else .error (.depthExceeded limit) := by
  have hlevels : n ≤ limit - depth ↔ depth + n ≤ limit := by omega
  rw [h limit depth]
  simp only [hlevels]

/-- A result that is no failure for want of levels. -/
def InLimit (x : Except ConvertError α) : Prop :=
  ∀ limit, x ≠ .error (.depthExceeded limit)

theorem inLimit_pure (value : α) : InLimit (pure value : Except ConvertError α) := nofun

section

variable {δ : Type} [Counter δ]

/-- A property of conversions from what they are built of, along with the levels that they need: it
holds of what looks at neither limit nor depth, of one conversion after another at the same depth, and
of a conversion one level further down. -/
structure Law (c : Conversion) (P : {α : Type} → Nat → LeveledBy δ α → Prop) : Prop where
  const : ∀ {α : Type} {x : Except ConvertError α}, InLimit x → P 0 fun _ _ => x
  bind : ∀ {α β : Type} {n m : Nat} {x : LeveledBy δ α} {f : α → LeveledBy δ β}, P n x →
    (∀ a, P m (f a)) → P (max n m) fun limit depth => x limit depth >>= fun a => f a limit depth
  below : ∀ {α : Type} {n : Nat} {run : LeveledBy δ α}, P n run →
    P (n + 1) fun limit depth => (c.limited limit).descend depth >>= run limit

/-- A property of conversions that fail for want of levels alone, from what they are built of. -/
structure TextLaw (c : Conversion) (P : {α : Type} → Nat → LeveledBy δ α → Prop) : Prop where
  pure : ∀ {α : Type} (value : α), P 0 fun _ _ => (Pure.pure value : Except ConvertError α)
  bind : ∀ {α β : Type} {n m : Nat} {x : LeveledBy δ α} {f : α → LeveledBy δ β}, P n x →
    (∀ a, P m (f a)) → P (max n m) fun limit depth => x limit depth >>= fun a => f a limit depth
  below : ∀ {α : Type} {n : Nat} {run : LeveledBy δ α}, P n run →
    P (n + 1) fun limit depth => (c.limited limit).descend depth >>= run limit

end

theorem discard_bind (x : Except ConvertError α) (y : Except ConvertError β) :
    (discard x >>= fun _ => y) = x >>= fun _ => y := by
  cases x <;> rfl

section

variable {δ : Type} [Counter δ] {c : Conversion} {P : {α : Type} → Nat → LeveledBy δ α → Prop}
  {n : Nat}

namespace TextLaw

theorem map (law : TextLaw c P) {x : LeveledBy δ α} (hx : P n x) (f : α → β) :
    P n fun limit depth => x limit depth >>= fun a =>
      (Pure.pure (f a) : Except ConvertError β) := by
  have hbind := law.bind hx fun a => law.pure (f a)
  rwa [Nat.max_zero] at hbind

theorem leaf (law : TextLaw c P) (value : α) :
    P 1 fun limit depth => discard ((c.limited limit).descend depth) >>= fun _ =>
      (Pure.pure value : Except ConvertError α) := by
  simpa only [discard_bind] using law.below (law.pure value)

end TextLaw

namespace Law

theorem textLaw (law : Law c P) : TextLaw c P :=
  ⟨fun value => law.const (inLimit_pure value), law.bind, law.below⟩

theorem map (law : Law c P) {x : LeveledBy δ α} (hx : P n x) (f : α → β) :
    P n fun limit depth => x limit depth >>= fun a =>
      (pure (f a) : Except ConvertError β) :=
  law.textLaw.map hx f

theorem ite (law : Law c P) {x : LeveledBy δ α} (hx : P n x) (condition : Bool) {e : ConvertError}
    (he : InLimit (.error e : Except ConvertError Unit)) :
    P n fun limit depth => if condition then x limit depth else .error e := by
  cases condition with
  | true => exact hx
  | false =>
      have hthrow := law.bind (law.const he) fun _ => hx
      rwa [Nat.zero_max] at hthrow

/-- What is not nested needs one level. -/
theorem leaf (law : Law c P) {x : Except ConvertError α} (hx : InLimit x) :
    P 1 fun limit depth => discard ((c.limited limit).descend depth) >>= fun _ => x := by
  simpa only [discard_bind] using law.below (law.const hx)

end Law

end

theorem unaryValue_inLimit (c : Conversion) (layout : Layout) (op : UnaryOp) (operand : Expr) :
    InLimit (c.unaryValue layout op operand) := by
  intro limit h
  simp only [unaryValue] at h
  split at h
  · cases h
  · split at h
    · cases h
    · cases h

theorem limited_descend_bind (c : Conversion) (limit depth : Nat)
    (next : Nat → Except ConvertError α) : (c.limited limit).descend depth >>= next =
      if depth < limit then next (depth + 1) else .error (.depthExceeded limit) := by
  by_cases hlevel : depth < limit
  · have hlt : depth < (c.limited limit).options.maxDepth := hlevel
    rw [descend_of_lt hlt, if_pos hlevel]
    rfl
  · have hle : (c.limited limit).options.maxDepth ≤ depth := Nat.le_of_not_lt hlevel
    rw [descend_of_le hle, if_neg hlevel]
    rfl

namespace Exactly

variable {n m : Nat}

theorem pure (value : α) :
    Exactly 0 (fun _ _ => (Pure.pure value : Except ConvertError α)) value := by
  intro limit depth
  rw [if_pos (Nat.zero_le _)]
  rfl

/-- The levels that a conversion and the next one need are not added up: the next one starts at the
same depth. -/
theorem bind {x : Leveled α} {f : α → Leveled β} {a : α} {b : β} (hx : Exactly n x a)
    (hf : Exactly m (f a) b) :
    Exactly (max n m) (fun limit depth => x limit depth >>= fun a => f a limit depth) b := by
  intro limit depth
  beta_reduce
  rw [hx limit depth]
  by_cases hn : n ≤ limit - depth
  · rw [if_pos hn]
    change f a limit depth = _
    rw [hf limit depth]
    simp only [Nat.max_le, hn, true_and]
  · have hmax : ¬ max n m ≤ limit - depth := fun h => hn (Nat.max_le.mp h).1
    rw [if_neg hn, if_neg hmax]
    rfl

/-- A conversion one level further down needs one level more. -/
theorem below {c : Conversion} {run : Leveled α} {value : α} (h : Exactly n run value) :
    Exactly (n + 1) (fun limit depth => (c.limited limit).descend depth >>= run limit) value := by
  intro limit depth
  beta_reduce
  rw [limited_descend_bind, h limit (depth + 1)]
  split_ifs
  all_goals first | rfl | omega

/-- What has a value one level further down has it where more levels are left. -/
theorem of_below {limit depth : Nat} {run : Leveled α} {value : α} (h : Exactly n run value)
    (hbelow : run limit (depth + 1) = .ok value) : run limit depth = .ok value := by
  rw [h limit (depth + 1)] at hbelow
  split at hbelow
  · rw [h limit depth, if_pos (by omega)]
  · cases hbelow

theorem textLaw (c : Conversion) : TextLaw c fun n run => ∃ value, Exactly n run value where
  pure value := ⟨value, pure value⟩
  bind := by
    rintro α β n m x f ⟨a, hx⟩ hf
    obtain ⟨b, hb⟩ := hf a
    exact ⟨b, hx.bind hb⟩
  below := fun ⟨value, h⟩ => ⟨value, h.below⟩

end Exactly

/-- A conversion has one value, for which it needs exactly `n` levels, or never has any. -/
def Settled (n : Nat) (run : Leveled α) : Prop :=
  (∃ value, Exactly n run value) ∨ ∀ limit depth value, run limit depth ≠ .ok value

namespace Settled

variable {n m : Nat}

theorem pure (value : α) : Settled 0 fun _ _ => (Pure.pure value : Except ConvertError α) :=
  Or.inl ⟨value, .pure value⟩

theorem throw (n : Nat) (e : ConvertError) :
    Settled n fun _ _ => (MonadExcept.throw e : Except ConvertError α) := by
  refine Or.inr fun limit depth value h => ?_
  cases h

theorem const (x : Except ConvertError α) : Settled 0 fun _ _ => x := by
  cases x with
  | error e => exact throw 0 e
  | ok value => exact pure value

theorem bind {x : Leveled α} {f : α → Leveled β} (hx : Settled n x)
    (hf : ∀ a, Settled m (f a)) :
    Settled (max n m) fun limit depth => x limit depth >>= fun a => f a limit depth := by
  rcases hx with ⟨a, hx⟩ | hx
  · rcases hf a with ⟨b, hf⟩ | hf
    · exact Or.inl ⟨b, hx.bind hf⟩
    · refine Or.inr fun limit depth b h => ?_
      beta_reduce at h
      rw [hx limit depth] at h
      split at h
      · exact hf limit depth b h
      · cases h
  · refine Or.inr fun limit depth b h => ?_
    beta_reduce at h
    cases hrun : x limit depth with
    | error e =>
        rw [hrun] at h
        cases h
    | ok a => exact hx limit depth a hrun

theorem below {c : Conversion} {run : Leveled α} (h : Settled n run) :
    Settled (n + 1) fun limit depth => (c.limited limit).descend depth >>= run limit := by
  rcases h with ⟨value, h⟩ | h
  · exact Or.inl ⟨value, h.below⟩
  · refine Or.inr fun limit depth value heq => ?_
    beta_reduce at heq
    rw [limited_descend_bind] at heq
    split at heq
    · exact h limit (depth + 1) value heq
    · cases heq

/-- All values of a conversion that is settled are the same one. -/
theorem exactly {run : Leveled α} (h : Settled n run) {limit depth : Nat} {value : α}
    (hvalue : run limit depth = .ok value) : Exactly n run value := by
  rcases h with ⟨value', h⟩ | h
  · rw [h limit depth] at hvalue
    split at hvalue
    · cases hvalue
      exact h
    · cases hvalue
  · exact absurd hvalue (h limit depth value)

theorem law (c : Conversion) : Law c Settled := ⟨fun _ => const _, bind, below⟩

end Settled

variable (c : Conversion)

/-- The branches of a choice are one level further down, and what follows it is not. -/
theorem template_choice {δ : Type} [Counter δ] (depth : δ) (layout : Layout)
    (ifTrim elseTrim endTrim : Trim) (condition : Expr) (yes : Template) (no : Option Template) (rest : Template) :
    c.template depth (.choice layout ifTrim elseTrim endTrim condition yes no :: rest) =
      ((do
        let below ← c.descend depth
        let yes ← c.template below yes
        let no ← c.optionalTemplate below no
        return choiceText (c.sourceText condition) yes no) >>= fun text => do
          return text ++ (← c.template depth rest)) := by
  simp only [template, bind_assoc, pure_bind]

theorem template_repetition {δ : Type} [Counter δ] (depth : δ) (layout : Layout)
    (forTrim endTrim : Trim) (loop : Loop) (collection : Expr) (body rest : Template) :
    c.template depth (.repetition layout forTrim endTrim loop collection body :: rest) =
      ((do
        let below ← c.descend depth
        let body ← c.template below body
        return repetitionText loop (c.sourceText collection) body) >>= fun text => do
          return text ++ (← c.template depth rest)) := by
  simp only [template, bind_assoc, pure_bind]

section

variable {c} {δ : Type} [Counter δ]
  {P : {α : Type} → Nat → LeveledBy δ α → Prop}

/-- What has a law holds of every text, with the levels that the text needs. -/
theorem TextLaw.texts (law : TextLaw c P) :
    (∀ (_ : Nat) (e : Expr),
      P e.partLevels fun limit depth => (c.limited limit).stringPart depth e) ∧
    (∀ (_ : Nat) (parts : Template),
      P (Expr.partsLevels parts) fun limit depth => (c.limited limit).template depth parts) ∧
    (∀ (_ : Nat) (no : Option Template),
      P (Expr.elseLevels no) fun limit depth =>
        (c.limited limit).optionalTemplate depth no) := by
  refine stringPart.mutual_induct _ _ _ ?bool ?number ?string ?template ?heredoc ?conditional
    ?other ?nil ?literal ?interpolation ?choice ?repetition ?none ?some
  case bool =>
    intro _ layout value
    simpa only [stringPart, Expr.partLevels] using law.leaf _
  case number =>
    intro _ layout value
    simpa only [stringPart, Expr.partLevels] using law.leaf _
  case string =>
    intro _ layout value
    simpa only [stringPart, Expr.partLevels] using law.leaf _
  case template =>
    intro _ layout parts ih
    simpa only [stringPart, Expr.partLevels] using law.below (ih 0)
  case heredoc =>
    intro _ layout indented parts ih
    simpa only [stringPart, Expr.partLevels] using law.below (ih 0)
  case conditional =>
    intro _ layout condition yes no ihyes ihno
    simp only [stringPart, Expr.partLevels, sourceText_limited]
    exact law.below (law.bind (ihyes 0) fun yes => law.map (ihno 0) _)
  case other =>
    intro depth e hbool hnumber hstring htemplate hheredoc hconditional
    rw [Expr.partLevels]
    · have hpart : ∀ limit (depth : δ), (c.limited limit).stringPart depth e =
          discard ((c.limited limit).descend depth) >>= fun _ => Pure.pure (c.verbatim e) := by
        intro limit depth
        rw [stringPart]
        · rfl
        all_goals assumption
      simpa only [hpart] using law.leaf _
    all_goals assumption
  case nil =>
    intro _
    simpa only [template, Expr.partsLevels] using law.pure _
  case literal =>
    intro _ text rest ih
    simpa only [template, Expr.partsLevels] using law.map ih _
  case interpolation =>
    intro _ layout trim e rest ihe ih
    simp only [template, Expr.partsLevels]
    exact law.bind ihe fun text => law.map ih _
  case choice =>
    intro _ layout ifTrim elseTrim endTrim condition yes no rest ihyes ihno ih
    simp only [template_choice, Expr.partsLevels, sourceText_limited]
    exact law.bind (law.below (law.bind (ihyes 0) fun yes => law.map (ihno 0) _)) fun text =>
      law.map ih _
  case repetition =>
    intro _ layout forTrim endTrim loop collection body rest ihbody ih
    simp only [template_repetition, Expr.partsLevels, sourceText_limited]
    exact law.bind (law.below (law.map (ihbody 0) _)) fun text => law.map ih _
  case none =>
    intro _
    simpa only [optionalTemplate, Expr.elseLevels] using law.pure _
  case some =>
    intro _ parts ih
    simpa only [optionalTemplate, Expr.elseLevels] using ih

theorem TextLaw.objectKey (law : TextLaw c P) (key : Key) :
    P (Expr.keyLevels key) fun limit depth => (c.limited limit).objectKey depth key := by
  cases key with
  | ident name => exact law.pure name
  | expr e =>
      cases e with
      | var layout name => exact law.pure (c.sourceText (.var layout name))
      | traversal layout base path =>
          exact law.pure (c.sourceText (.traversal layout base path))
      | _ => exact law.texts.1 0 _

namespace Law

theorem texts (law : Law c P) :
    (∀ (_ : Nat) (e : Expr),
      P e.partLevels fun limit depth => (c.limited limit).stringPart depth e) ∧
    (∀ (_ : Nat) (parts : Template),
      P (Expr.partsLevels parts) fun limit depth => (c.limited limit).template depth parts) ∧
    (∀ (_ : Nat) (no : Option Template),
      P (Expr.elseLevels no) fun limit depth =>
        (c.limited limit).optionalTemplate depth no) :=
  law.textLaw.texts

/-- What has a law holds of every value, with the levels that the expression needs. -/
theorem values (law : Law c P) :
    (∀ (_ : Nat) (e : Expr),
      P e.levels fun limit depth => (c.limited limit).expression depth e) ∧
    (∀ (_ : Nat) (items : List Item),
      P (Expr.entriesLevels items) fun limit depth =>
        (c.limited limit).objectItems depth items) ∧
    (∀ (_ : Nat) (items : List Expr),
      P (Expr.itemsLevels items) fun limit depth =>
        (c.limited limit).expressions depth items) := by
  refine expression.mutual_induct _ _ _ ?null ?bool ?number ?string ?unary ?wrapped ?template
    ?heredoc ?array ?object ?other ?nil ?cons ?nilItems ?consItems
  case null =>
    intro _ layout
    simpa only [expression, Expr.levels] using law.leaf (inLimit_pure _)
  case bool =>
    intro _ layout value
    simpa only [expression, Expr.levels] using law.leaf (inLimit_pure _)
  case number =>
    intro _ layout value
    simpa only [expression, Expr.levels] using law.leaf (inLimit_pure _)
  case string =>
    intro _ layout value
    simpa only [expression, Expr.levels] using law.leaf (inLimit_pure _)
  case unary =>
    intro _ layout op operand
    simpa only [expression, Expr.levels, unaryValue_limited] using
      law.leaf (c.unaryValue_inLimit layout op operand)
  case wrapped =>
    intro _ layout inside trim inner ih
    simpa only [expression, Expr.levels] using law.below (ih 0)
  case template =>
    intro _ layout parts hwrapped
    have htext := law.map (law.texts.2.1 0 parts) Value.string
    rw [Expr.levels]
    · have hvalue : ∀ limit (depth : δ),
          (c.limited limit).expression depth (.template layout parts) =
          (c.limited limit).descend depth >>= fun below =>
            (c.limited limit).template below parts >>= fun text => pure (.string text) := by
        intro limit depth
        rw [expression]
        exact hwrapped
      simpa only [hvalue] using law.below htext
    all_goals exact hwrapped
  case heredoc =>
    intro _ layout indented parts
    simpa only [expression, Expr.levels] using
      law.below (law.map (law.texts.2.1 0 parts) _)
  case array =>
    intro _ layout items ih
    simpa only [expression, Expr.levels] using law.below (law.map (ih 0) _)
  case object =>
    intro _ layout items ih
    simpa only [expression, Expr.levels] using law.below (law.map (ih 0) _)
  case other =>
    intro depth e hnull hbool hnumber hstring hunary hwrapped htemplate hheredoc harray hobject
    rw [Expr.levels]
    · have hvalue : ∀ limit (depth : δ), (c.limited limit).expression depth e =
          discard ((c.limited limit).descend depth) >>= fun _ => pure (.string (c.verbatim e)) := by
        intro limit depth
        rw [expression]
        · rfl
        all_goals assumption
      simpa only [hvalue] using law.leaf (inLimit_pure _)
    all_goals assumption
  case nil =>
    intro _
    simpa only [expressions, Expr.itemsLevels] using law.const (inLimit_pure _)
  case cons =>
    intro _ e rest ihe ih
    simpa only [expressions, Expr.itemsLevels] using law.bind ihe fun value => law.map ih _
  case nilItems =>
    intro _
    simpa only [objectItems, Expr.entriesLevels] using law.const (inLimit_pure _)
  case consItems =>
    intro _ layout key value rest ihvalue ih
    simp only [objectItems, Expr.entriesLevels]
    exact law.bind (law.textLaw.objectKey key) fun name => law.bind ihvalue fun value => law.map ih _

end Law

end

end Conversion

end HclToJson
