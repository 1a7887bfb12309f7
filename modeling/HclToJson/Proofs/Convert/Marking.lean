import HclToJson.Proofs.Convert.Depth
import HclToJson.Proofs.Convert.Segment
import HclToJson.Proofs.Entries
import HclToJson.Syntax.Same

/-!
Keeping interpolations does nothing but mark references. Of two conversions that differ in this
option only, both end with the same error, or their results are written from the same segments.
-/

namespace HclToJson

namespace Expr

mutual

/-- The references that a conversion of an expression can write as such. All others are within the
text of an expression that is quoted as it stands. -/
def references : Expr → List Expr
  | .var layout name => [.var layout name]
  | .traversal layout base path =>
      if (traversal layout base path).isReference then [.traversal layout base path] else []
  | .template _ parts | .heredoc _ _ parts => partsReferences parts
  | .conditional _ _ yes no => yes.references ++ no.references
  | .array _ items => itemsReferences items
  | .object _ items => entriesReferences items
  | _ => []
  termination_by structural e => e

def itemsReferences : List Expr → List Expr
  | [] => []
  | e :: rest => e.references ++ itemsReferences rest
  termination_by structural items => items

def keyReferences : Key → List Expr
  | .ident _ => []
  | .expr e => e.references
  termination_by structural key => key

def entriesReferences : List Item → List Expr
  | [] => []
  | .mk _ key value :: rest => keyReferences key ++ value.references ++ entriesReferences rest
  termination_by structural items => items

def partsReferences : Template → List Expr
  | [] => []
  | .literal _ :: rest => partsReferences rest
  | .interpolation _ _ e :: rest => e.references ++ partsReferences rest
  | .choice _ _ _ _ _ yes no :: rest =>
      partsReferences yes ++ elseReferences no ++ partsReferences rest
  | .repetition _ _ _ _ _ body :: rest => partsReferences body ++ partsReferences rest
  termination_by structural parts => parts

def elseReferences : Option Template → List Expr
  | none => []
  | some parts => partsReferences parts
  termination_by structural parts => parts

end

theorem mem_references {e : Expr} (h : e.isReference = true) : e ∈ e.references := by
  cases e with
  | var layout name => simp [references]
  | traversal layout base path => simp [references, h]
  | _ => simp [isReference] at h

end Expr

namespace Conversion

open HclToJson.Expr Entries

/-- The same conversion with references marked, or with bare references. -/
def marking (c : Conversion) (marked : Bool) : Conversion :=
  { c with options := { c.options with keepInterpolation := marked } }

mutual

/-- No object that an expression at a depth is converted to gets the same key from two items. -/
def KeysApart (c : Conversion) (depth : Nat) : Expr → Prop
  | .template _ [.interpolation _ _ inner] => KeysApart c (depth + 1) inner
  | .array _ items => ItemsKeysApart c (depth + 1) items
  | .object _ items =>
      items.Pairwise (fun a b => ∀ key, c.objectKey (depth + 1) a.key = .ok key →
        c.objectKey (depth + 1) b.key ≠ .ok key) ∧
      EntriesKeysApart c (depth + 1) items
  | _ => True
  termination_by structural e => e

def ItemsKeysApart (c : Conversion) (depth : Nat) : List Expr → Prop
  | [] => True
  | e :: rest => KeysApart c depth e ∧ ItemsKeysApart c depth rest
  termination_by structural items => items

def EntriesKeysApart (c : Conversion) (depth : Nat) : List Item → Prop
  | [] => True
  | .mk _ _ value :: rest => KeysApart c depth value ∧ EntriesKeysApart c depth rest
  termination_by structural items => items

end

variable {c : Conversion} {depth : Nat} {rs : List Expr}

theorem verbatim_marks {e : Expr} (h : e.references ⊆ rs) :
    Marks c rs ((c.marking false).verbatim e) ((c.marking true).verbatim e) := by
  by_cases hreference : e.isReference = true
  · simp only [verbatim, hreference, ↓reduceIte]
    exact Marks.reference hreference (h (mem_references hreference))
  · simp only [verbatim, hreference]
    exact Marks.plain _

theorem texts_end_alike (hne : ∀ e ∈ rs, c.sourceText e ≠ "") :
    (∀ (depth : Nat) e, e.references ⊆ rs →
      EndAlike (Marks c rs) ((c.marking false).stringPart depth e)
        ((c.marking true).stringPart depth e)) ∧
    (∀ (depth : Nat) parts, partsReferences parts ⊆ rs →
      EndAlike (Marks c rs) ((c.marking false).template depth parts)
        ((c.marking true).template depth parts)) ∧
    (∀ (depth : Nat) no, elseReferences no ⊆ rs →
      EndAlike (Marks c rs) ((c.marking false).optionalTemplate depth no)
        ((c.marking true).optionalTemplate depth no)) := by
  refine stringPart.mutual_induct _ _ _ ?bool ?number ?string ?template ?heredoc ?conditional
    ?other ?nil ?literal ?interpolation ?choice ?repetition ?none ?some
  case bool =>
    intro depth layout value _
    rw [stringPart, stringPart]
    exact .bind_same _ fun _ _ => .pure (.plain _)
  case number =>
    intro depth layout value _
    rw [stringPart, stringPart]
    exact .bind_same _ fun _ _ => .pure (.plain _)
  case string =>
    intro depth layout value _
    rw [stringPart, stringPart]
    exact .bind_same _ fun _ _ => .pure (.plain _)
  case template =>
    intro depth layout parts ih hrs
    rw [stringPart, stringPart]
    exact .bind_same _ fun below _ => ih below hrs
  case heredoc =>
    intro depth layout indented parts ih hrs
    rw [stringPart, stringPart]
    exact .bind_same _ fun below _ => ih below hrs
  case conditional =>
    intro depth layout condition yes no ihyes ihno hrs
    rw [references, List.append_subset] at hrs
    rw [stringPart, stringPart]
    -- The condition is quoted in both runs. What the branches are is only looked at by `choiceText`.
    refine .bind_same _ fun below _ => ?_
    refine (ihyes below hrs.1).bind fun yes yes' hyes => ?_
    refine (ihno below hrs.2).bind fun no no' hno => ?_
    exact .pure (hyes.choiceText hne _ hno)
  case other =>
    intro depth e hbool hnumber hstring htemplate hheredoc hconditional hrs
    rw [stringPart, stringPart]
    · exact .bind_same _ fun _ _ => .pure (verbatim_marks hrs)
    all_goals assumption
  case nil =>
    intro depth _
    exact .pure (.plain "")
  case literal =>
    intro depth text rest ih hrs
    rw [template, template]
    refine (ih hrs).bind fun after after' hafter => ?_
    exact .pure ((Marks.plain text).append hafter)
  case interpolation =>
    intro depth layout trim e rest ihe ih hrs
    rw [partsReferences, List.append_subset] at hrs
    rw [template, template]
    refine (ihe hrs.1).bind fun text text' htext => ?_
    refine (ih hrs.2).bind fun after after' hafter => ?_
    exact .pure (htext.append hafter)
  case choice =>
    intro depth layout ifTrim elseTrim endTrim condition yes no rest ihyes ihno ih hrs
    rw [partsReferences, List.append_subset, List.append_subset] at hrs
    rw [template, template]
    refine .bind_same _ fun below _ => ?_
    refine (ihyes below hrs.1.1).bind fun yes yes' hyes => ?_
    refine (ihno below hrs.1.2).bind fun no no' hno => ?_
    refine (ih hrs.2).bind fun after after' hafter => ?_
    exact .pure ((hyes.choiceText hne _ hno).append hafter)
  case repetition =>
    intro depth layout forTrim endTrim loop collection body rest ihbody ih hrs
    rw [partsReferences, List.append_subset] at hrs
    rw [template, template]
    refine .bind_same _ fun below _ => ?_
    refine (ihbody below hrs.1).bind fun body body' hbody => ?_
    refine (ih hrs.2).bind fun after after' hafter => ?_
    exact .pure ((hbody.repetitionText loop _).append hafter)
  case none =>
    intro depth _
    exact .pure (.plain "")
  case some =>
    intro depth parts ih hrs
    rw [optionalTemplate, optionalTemplate]
    exact ih hrs

theorem objectKey_ends_alike (hne : ∀ e ∈ rs, c.sourceText e ≠ "") (depth : Nat) {key : Key}
    (hrs : keyReferences key ⊆ rs) :
    EndAlike (Marks c rs) ((c.marking false).objectKey depth key)
      ((c.marking true).objectKey depth key) := by
  cases key with
  | ident name => exact .pure (.plain name)
  | expr e =>
      cases e with
      | var layout name => exact .pure (.plain _)
      | traversal layout base path => exact .pure (.plain _)
      | _ => exact (texts_end_alike hne).1 depth _ hrs

theorem objectItems_cons_eq_ok {layout : Layout} {key : Key} {value : Expr} {rest : List Item}
    {entries : List (String × Value)}
    (h : c.objectItems depth (.mk layout key value :: rest) = .ok entries) :
    ∃ name held others, c.objectKey depth key = .ok name ∧ c.objectItems depth rest = .ok others ∧
      entries = (name, held) :: others := by
  rw [objectItems] at h
  obtain ⟨name, hkey, h⟩ := bind_eq_ok_iff.mp h
  obtain ⟨held, -, h⟩ := bind_eq_ok_iff.mp h
  obtain ⟨others, hothers, h⟩ := bind_eq_ok_iff.mp h
  cases h
  exact ⟨name, held, others, hkey, hothers, rfl⟩

theorem exists_objectKey {items : List Item} {entries : List (String × Value)}
    (h : c.objectItems depth items = .ok entries) {name : String} (hname : name ∈ keys entries) :
    ∃ item ∈ items, c.objectKey depth item.key = .ok name := by
  induction items generalizing entries with
  | nil =>
      cases h
      cases hname
  | cons item rest ih =>
      obtain ⟨layout, key, value⟩ := item
      obtain ⟨first, held, others, hkey, hothers, rfl⟩ := objectItems_cons_eq_ok h
      rcases List.mem_cons.mp hname with rfl | hname
      · exact ⟨_, List.mem_cons_self, hkey⟩
      · obtain ⟨item, hitem, hkey⟩ := ih hothers hname
        exact ⟨item, List.mem_cons_of_mem _ hitem, hkey⟩

theorem nodup_objectItems {items : List Item} {entries : List (String × Value)}
    (h : c.objectItems depth items = .ok entries)
    (hapart : items.Pairwise fun a b => ∀ key, c.objectKey depth a.key = .ok key →
      c.objectKey depth b.key ≠ .ok key) :
    (entries.map (·.1)).Nodup := by
  induction items generalizing entries with
  | nil =>
      cases h
      exact List.nodup_nil
  | cons item rest ih =>
      obtain ⟨layout, key, value⟩ := item
      obtain ⟨name, held, others, hkey, hothers, rfl⟩ := objectItems_cons_eq_ok h
      rw [List.pairwise_cons] at hapart
      refine List.nodup_cons.mpr ⟨fun hname => ?_, ih hothers hapart.2⟩
      obtain ⟨item, hitem, hsame⟩ := exists_objectKey hothers hname
      exact hapart.1 item hitem name hkey hsame

theorem values_end_alike (hne : ∀ e ∈ rs, c.sourceText e ≠ "") :
    (∀ (depth : Nat) e, e.references ⊆ rs →
      EndAlike (fun v w => KeysApart (c.marking false) depth e → KeysApart (c.marking true) depth e →
          ValueMarks c rs v w)
        ((c.marking false).expression depth e) ((c.marking true).expression depth e)) ∧
    (∀ (depth : Nat) items, entriesReferences items ⊆ rs →
      EndAlike (fun as bs => EntriesKeysApart (c.marking false) depth items →
          EntriesKeysApart (c.marking true) depth items → EntriesMark c rs as bs)
        ((c.marking false).objectItems depth items) ((c.marking true).objectItems depth items)) ∧
    (∀ (depth : Nat) items, itemsReferences items ⊆ rs →
      EndAlike (fun as bs => ItemsKeysApart (c.marking false) depth items →
          ItemsKeysApart (c.marking true) depth items → ItemsMark c rs as bs)
        ((c.marking false).expressions depth items) ((c.marking true).expressions depth items)) := by
  refine expression.mutual_induct _ _ _ ?null ?bool ?number ?string ?unary ?wrapped ?template
    ?heredoc ?array ?object ?other ?nil ?cons ?nilItems ?consItems
  case null =>
    intro depth layout _
    rw [expression, expression]
    exact .bind_same _ fun _ _ => .pure fun _ _ => trivial
  case bool =>
    intro depth layout value _
    rw [expression, expression]
    exact .bind_same _ fun _ _ => .pure fun _ _ => rfl
  case number =>
    intro depth layout value _
    rw [expression, expression]
    exact .bind_same _ fun _ _ => .pure fun _ _ => .refl _
  case string =>
    intro depth layout value _
    rw [expression, expression]
    exact .bind_same _ fun _ _ => .pure fun _ _ => .refl _
  case unary =>
    intro depth layout op operand _
    rw [expression, expression]
    refine .bind_same _ fun _ _ => (EndAlike.refl _).mono ?_
    rintro value _ - - rfl - -
    exact .refl value
  case wrapped =>
    intro depth layout inside trim inner ih hrs
    rw [expression, expression]
    refine .bind_same _ fun below hbelow => ?_
    obtain rfl := descend_eq_ok hbelow
    have hinner : inner.references ⊆ rs := by simpa [references, partsReferences] using hrs
    simpa only [KeysApart] using ih (depth + 1) hinner
  case template =>
    intro depth layout parts hwrapped hrs
    rw [expression, expression]
    · refine .bind_same _ fun below _ => ?_
      refine ((texts_end_alike hne).2.1 below parts hrs).bind fun text text' htext => ?_
      exact .pure fun _ _ => htext
    all_goals exact hwrapped
  case heredoc =>
    intro depth layout indented parts hrs
    rw [expression, expression]
    refine .bind_same _ fun below _ => ?_
    refine ((texts_end_alike hne).2.1 below parts hrs).bind fun text text' htext => ?_
    exact .pure fun _ _ => htext
  case array =>
    intro depth layout items ih hrs
    rw [expression, expression]
    refine .bind_same _ fun below hbelow => ?_
    obtain rfl := descend_eq_ok hbelow
    refine (ih (depth + 1) hrs).bind fun values values' hvalues => ?_
    simpa only [KeysApart] using EndAlike.pure hvalues
  case object =>
    intro depth layout items ih hrs
    rw [expression, expression]
    refine .bind_same _ fun below hbelow => ?_
    obtain rfl := descend_eq_ok hbelow
    have halike := (ih (depth + 1) hrs).mono fun entries entries' h h' hmarks =>
      And.intro (nodup_objectItems h) (And.intro (nodup_objectItems h') hmarks)
    refine halike.bind fun entries entries' hentries => .pure fun hapart hapart' => ?_
    obtain ⟨hnodup, hnodup', hmarks⟩ := hentries
    rw [KeysApart] at hapart hapart'
    rw [ofList_eq_self (hnodup hapart.1), ofList_eq_self (hnodup' hapart'.1)]
    exact hmarks hapart.2 hapart'.2
  case other =>
    intro depth e hnull hbool hnumber hstring hunary hwrapped htemplate hheredoc harray hobject hrs
    rw [expression, expression]
    · exact .bind_same _ fun _ _ => .pure fun _ _ => verbatim_marks hrs
    all_goals assumption
  case nil =>
    intro depth _
    exact .pure fun _ _ => trivial
  case cons =>
    intro depth e rest ihe ih hrs
    rw [itemsReferences, List.append_subset] at hrs
    rw [expressions, expressions]
    refine (ihe hrs.1).bind fun value value' hvalue => ?_
    refine (ih hrs.2).bind fun values values' hvalues => .pure fun hapart hapart' => ?_
    exact ⟨hvalue hapart.1 hapart'.1, hvalues hapart.2 hapart'.2⟩
  case nilItems =>
    intro depth _
    exact .pure fun _ _ => trivial
  case consItems =>
    intro depth layout key value rest ihvalue ih hrs
    rw [entriesReferences, List.append_subset, List.append_subset] at hrs
    rw [objectItems, objectItems]
    refine (objectKey_ends_alike hne depth hrs.1.1).bind fun name name' hname => ?_
    refine (ihvalue hrs.1.2).bind fun held held' hheld => ?_
    refine (ih hrs.2).bind fun others others' hothers => .pure fun hapart hapart' => ?_
    exact ⟨hname, hheld hapart.1 hapart'.1, hothers hapart.2 hapart'.2⟩

/-- Marking references changes nothing else, if none of them has an empty text. Texts and values are
written from the same segments, so also the choices in them keep or leave out the same branches; an
error is the same error. Values are compared where no two items of an object get the same key. -/
theorem marking_only_marks (c : Conversion) (depth : Nat) :
    (∀ parts : Template, (∀ r ∈ partsReferences parts, c.sourceText r ≠ "") →
      EndAlike (fun bare marked => Marks c (partsReferences parts) bare marked ∧
          (bare = "" ↔ marked = ""))
        ((c.marking false).template depth parts) ((c.marking true).template depth parts)) ∧
    ∀ e : Expr, (∀ r ∈ e.references, c.sourceText r ≠ "") →
      EndAlike (fun bare marked => Marks c e.references bare marked ∧ (bare = "" ↔ marked = ""))
        ((c.marking false).stringPart depth e) ((c.marking true).stringPart depth e) ∧
      EndAlike (fun value value' => KeysApart (c.marking false) depth e →
          KeysApart (c.marking true) depth e → ValueMarks c e.references value value')
        ((c.marking false).expression depth e) ((c.marking true).expression depth e) := by
  constructor
  · intro parts hne
    refine ((texts_end_alike hne).2.1 depth parts (List.Subset.refl _)).mono ?_
    intro bare marked _ _ hmarks
    exact ⟨hmarks, hmarks.eq_empty_iff hne⟩
  · intro e hne
    constructor
    · refine ((texts_end_alike hne).1 depth e (List.Subset.refl _)).mono ?_
      intro bare marked _ _ hmarks
      exact ⟨hmarks, hmarks.eq_empty_iff hne⟩
    · exact (values_end_alike hne).1 depth e (List.Subset.refl _)

/-- The place of the text `var.x` in a source that holds nothing else. -/
def wholeSource : Layout := ⟨some ⟨0, 5⟩, [], [], []⟩

def referenced : Expr := .traversal wholeSource (.var wholeSource "var") [.attribute wholeSource "x"]

/-- An object with a reference in a key, in a branch of a choice, and as a value. -/
def referring : Expr :=
  .object wholeSource
    [.mk wholeSource (.expr (.template wholeSource
          [.literal "k-", .interpolation wholeSource ⟨false, false⟩ referenced]))
        (.template wholeSource [.literal "a",
          .choice wholeSource ⟨false, false⟩ ⟨false, false⟩ ⟨false, false⟩ referenced [.literal "y"]
            (some [.interpolation wholeSource ⟨false, false⟩ referenced])]),
      .mk wholeSource (.ident "z") referenced]

def referringSource : Conversion := ⟨[0x76, 0x61, 0x72, Byte.dot, 0x78], {}⟩

theorem marking_only_marks_referring :
    ((∀ r ∈ referring.references, referringSource.sourceText r ≠ "") ∧
      KeysApart (referringSource.marking false) 0 referring ∧
      KeysApart (referringSource.marking true) 0 referring) ∧
    (referringSource.marking false).expression 0 referring = .ok (.object
      [("k-var.x", .string "a%\x7bif var.x\x7dy%\x7belse\x7dvar.x%\x7bendif\x7d"),
        ("z", .string "var.x")]) ∧
    (referringSource.marking true).expression 0 referring = .ok (.object
      [("k-$\x7bvar.x\x7d",
          .string "a%\x7bif var.x\x7dy%\x7belse\x7d$\x7bvar.x\x7d%\x7bendif\x7d"),
        ("z", .string "$\x7bvar.x\x7d")]) ∧
    ValueMarks referringSource referring.references
      (.object [("k-var.x", .string "a%\x7bif var.x\x7dy%\x7belse\x7dvar.x%\x7bendif\x7d"),
        ("z", .string "var.x")])
      (.object [("k-$\x7bvar.x\x7d",
          .string "a%\x7bif var.x\x7dy%\x7belse\x7d$\x7bvar.x\x7d%\x7bendif\x7d"),
        ("z", .string "$\x7bvar.x\x7d")]) := by
  have hne : ∀ r ∈ referring.references, referringSource.sourceText r ≠ "" := by
    intro r hr
    obtain rfl : r = referenced := by
      simpa [referring, references, entriesReferences, keyReferences, partsReferences,
        elseReferences, referenced, Expr.isReference, Step.isFixed] using hr
    have htext : referringSource.sourceText referenced = "var.x" := rfl
    rw [htext]
    decide
  have hbare : KeysApart (referringSource.marking false) 0 referring := by
    refine ⟨List.pairwise_pair.mpr fun key hfirst hsecond => ?_, trivial, trivial, trivial⟩
    obtain rfl : "k-var.x" = key := Except.ok.inj hfirst
    exact absurd (Except.ok.inj hsecond) (by decide)
  have hmarked : KeysApart (referringSource.marking true) 0 referring := by
    refine ⟨List.pairwise_pair.mpr fun key hfirst hsecond => ?_, trivial, trivial, trivial⟩
    obtain rfl : "k-$\x7bvar.x\x7d" = key := Except.ok.inj hfirst
    exact absurd (Except.ok.inj hsecond) (by decide)
  exact ⟨⟨hne, hbare, hmarked⟩, rfl, rfl,
    ((marking_only_marks referringSource 0).2 referring hne).2 hbare hmarked⟩

end Conversion

end HclToJson
