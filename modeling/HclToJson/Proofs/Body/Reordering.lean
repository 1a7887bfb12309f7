import HclToJson.Proofs.Body.Steps
import HclToJson.Proofs.Object.UpToOrder

/-!
The order of the blocks of a body. Blocks whose paths branch off from each other may change places;
then the object of the body is the same up to the order of its keys, if there is one.
-/

namespace HclToJson

/-- The path of a block: its identifier and its labels. An attribute has none. -/
def Structure.path? : Structure → Option (List String)
  | .attribute .. => none
  | .block ident labels _ => some (ident :: labels)

namespace Body

/-- Structures that have to stay in their order: two attributes, and two blocks if the path of one is
the beginning of the other's path, or all of it. -/
def Tied : Option (List String) → Option (List String) → Prop
  | none, none => True
  | some path, some other => path <+: other ∨ other <+: path
  | _, _ => False

instance decidableTied : (path other : Option (List String)) → Decidable (Tied path other)
  | none, none => inferInstanceAs (Decidable True)
  | some path, some other => inferInstanceAs (Decidable (path <+: other ∨ other <+: path))
  | none, some _ | some _, none => inferInstanceAs (Decidable False)

/-- The structures of a body that have one of two paths, in order. -/
def along (structures : Body) (path other : Option (List String)) : Body :=
  structures.filter fun item => item.path? = path ∨ item.path? = other

/-- The same structures in another order, in which all structures that are tied to each other have
kept their order. -/
def Reordered (structures reordered : Body) : Prop :=
  ∀ path other, Tied path other → structures.along path other = reordered.along path other

/-- What comes from exchanging neighbours that are not tied to each other, any number of times. -/
inductive Exchanged : Body → Body → Prop
  | refl (structures : Body) : Exchanged structures structures
  | cons (item : Structure) {rest rest' : Body} (h : Exchanged rest rest') :
      Exchanged (item :: rest) (item :: rest')
  | swap (first second : Structure) (rest : Body) (h : ¬ Tied first.path? second.path?) :
      Exchanged (first :: second :: rest) (second :: first :: rest)
  | trans {first second third : Body} (h : Exchanged first second)
      (h' : Exchanged second third) : Exchanged first third

variable {path other : Option (List String)} {item first second : Structure}
  {front back rest structures structures' : Body}

theorem Tied.refl (path : Option (List String)) : Tied path path := by
  cases path with
  | none => trivial
  | some path => exact Or.inl (List.prefix_refl path)

theorem Tied.symm (h : Tied path other) : Tied other path := by
  cases path <;> cases other
  · trivial
  · exact h
  · exact h
  · exact Or.symm h

theorem along_cons (item : Structure) (rest : Body) (path other : Option (List String)) :
    along (item :: rest) path other =
      if item.path? = path ∨ item.path? = other then item :: rest.along path other
      else rest.along path other := by
  simp only [along, List.filter_cons, decide_eq_true_eq]

theorem along_append (front back : Body) (path other : Option (List String)) :
    along (front ++ back) path other = front.along path other ++ back.along path other :=
  List.filter_append front back

/-- Two structures at tied paths are tied to each other. -/
theorem Tied.of_mem (h : Tied path other) (hfirst : first.path? = path ∨ first.path? = other)
    (hsecond : second.path? = path ∨ second.path? = other) : Tied first.path? second.path? := by
  rcases hfirst with hfirst | hfirst <;> rcases hsecond with hsecond | hsecond <;>
    rw [hfirst, hsecond]
  · exact .refl path
  · exact h
  · exact h.symm
  · exact .refl other

namespace Exchanged

theorem reordered (h : Exchanged structures structures') : Reordered structures structures' := by
  induction h with
  | refl => exact fun _ _ _ => rfl
  | cons item _ ih =>
      intro path other htied
      rw [along_cons, along_cons, ih path other htied]
  | swap first second rest huntied =>
      intro path other htied
      simp only [along_cons]
      split
      · split
        · exact absurd (htied.of_mem ‹_› ‹_›) huntied
        · rfl
      · rfl
  | trans _ _ ih ih' =>
      exact fun path other htied => (ih path other htied).trans (ih' path other htied)

/-- What is tied to nothing in front of it may come first. -/
theorem move_front (h : ∀ before ∈ front, ¬ Tied before.path? item.path?) :
    Exchanged (front ++ item :: back) (item :: (front ++ back)) := by
  induction front with
  | nil => exact .refl _
  | cons before front ih =>
      obtain ⟨hbefore, hfront⟩ := List.forall_mem_cons.mp h
      exact (Exchanged.cons before (ih hfront)).trans (.swap before item (front ++ back) hbefore)

end Exchanged

namespace Reordered

theorem eq_nil (h : Reordered structures []) : structures = [] := by
  cases structures with
  | nil => rfl
  | cons item rest =>
      have hitem := h item.path? item.path? (.refl _)
      rw [along_cons, if_pos (Or.inl rfl)] at hitem
      cases hitem

/-- What is first after the reordering was tied to nothing in front of it, and the others have kept
their order. -/
theorem exists_front (h : Reordered structures (item :: rest)) :
    ∃ front back, structures = front ++ item :: back ∧
      (∀ before ∈ front, ¬ Tied before.path? item.path?) ∧ Reordered (front ++ back) rest := by
  have hitem := h item.path? item.path? (.refl _)
  rw [along_cons, if_pos (Or.inl rfl)] at hitem
  obtain ⟨front, back, rfl, hother, -, -⟩ := List.filter_eq_cons_iff.mp hitem
  have huntied : ∀ before ∈ front, ¬ Tied before.path? item.path? := by
    -- If there were one, then the first of them would also be the first after the reordering.
    intro before hbefore htied
    have htwo := h before.path? item.path? htied
    rw [along_append, along_cons item rest, if_pos (Or.inr rfl)] at htwo
    cases hfront : along front before.path? item.path? with
    | nil =>
        have hmem : before ∈ along front before.path? item.path? :=
          List.mem_filter.mpr ⟨hbefore, by simp⟩
        rw [hfront] at hmem
        cases hmem
    | cons earliest others =>
        rw [hfront, List.cons_append, List.cons.injEq] at htwo
        obtain ⟨rfl, -⟩ := htwo
        have hmem : earliest ∈ along front before.path? earliest.path? :=
          hfront ▸ List.mem_cons_self
        exact hother earliest (List.mem_filter.mp hmem).1 (by simp)
  refine ⟨front, back, rfl, huntied, fun path other htied => ?_⟩
  have hall := h path other htied
  rw [along_append, along_cons, along_cons] at hall
  rw [along_append]
  split at hall
  · have hnone : along front path other = [] := by
      refine List.filter_eq_nil_iff.mpr fun before hbefore hmem => ?_
      exact huntied before hbefore (htied.of_mem (of_decide_eq_true hmem) ‹_›)
    rw [hnone] at hall ⊢
    exact (List.cons.inj hall).2
  · exact hall

theorem exchanged (h : Reordered structures structures') : Exchanged structures structures' := by
  induction structures' generalizing structures with
  | nil => exact h.eq_nil ▸ .refl []
  | cons item rest ih =>
      obtain ⟨front, back, rfl, huntied, hrest⟩ := h.exists_front
      exact (Exchanged.move_front huntied).trans (.cons item (ih hrest))

end Reordered

end Body

namespace Conversion

open Object Body

/-- Two computations both fail, or they give objects that are equal up to the order of keys. -/
inductive AgreeUpToOrder : Except ConvertError Object → Except ConvertError Object → Prop
  | ok {out out' : Object} (h : (Value.object out).EqUpToOrder (.object out')) :
      AgreeUpToOrder (.ok out) (.ok out')
  | error (e e' : ConvertError) : AgreeUpToOrder (.error e) (.error e')

namespace AgreeUpToOrder

variable {x y z : Except ConvertError Object}

theorem refl (x : Except ConvertError Object) : AgreeUpToOrder x x := by
  cases x with
  | error e => exact .error e e
  | ok out => exact .ok (.refl _)

theorem trans (h : AgreeUpToOrder x y) (h' : AgreeUpToOrder y z) : AgreeUpToOrder x z := by
  cases h with
  | error e => cases h' with
    | error _ e' => exact .error e e'
  | ok h => cases h' with
    | ok h' => exact .ok (h.trans h')

/-- Two computations agree if each has a value equal to that of the other, whenever that has one. -/
theorem of_ok (h : ∀ out, x = .ok out → ∃ out', y = .ok out' ∧
      (Value.object out).EqUpToOrder (.object out'))
    (h' : ∀ out', y = .ok out' → ∃ out, x = .ok out) : AgreeUpToOrder x y := by
  cases x with
  | ok out =>
      obtain ⟨out', rfl, hequal⟩ := h out rfl
      exact .ok hequal
  | error e =>
      cases y with
      | error e' => exact .error e e'
      | ok out' =>
          obtain ⟨out, hout⟩ := h' out' rfl
          cases hout

theorem bind {f g : Object → Except ConvertError Object} (h : AgreeUpToOrder x y)
    (hf : ∀ out out', (Value.object out).EqUpToOrder (.object out') →
      AgreeUpToOrder (f out) (g out')) :
    AgreeUpToOrder (x >>= f) (y >>= g) := by
  cases h with
  | error e e' => exact .error e e'
  | ok h => exact hf _ _ h

end AgreeUpToOrder

variable {c : Conversion} {depth depth' : Nat} {ident ident' : String}
  {labels labels' : List String} {value value' : Except ConvertError Object} {out out' : Object}
  {structures structures' : Body}

theorem place_congr (h : (Value.object out).EqUpToOrder (.object out')) :
    AgreeUpToOrder (finished (place ident labels value out))
      (finished (place ident labels value out')) := by
  rw [finished_place, finished_place]
  cases value with
  | error e => exact .error e e
  | ok inner =>
      obtain ⟨hadded, hgraft⟩ := graft_congr ident labels (.object inner) h
      rw [ok_bind, ok_bind, hadded]
      split
      · exact .ok hgraft
      · exact .error _ _

/-- Two blocks that go into an object one after the other do so in the other order as well. -/
theorem exists_place_comm (hfront : ¬ ident :: labels <+: ident' :: labels')
    (hback : ¬ ident' :: labels' <+: ident :: labels)
    (h : (finished (place ident labels value out) >>= fun next =>
      finished (place ident' labels' value' next)) = .ok out') :
    ∃ out'', (finished (place ident' labels' value' out) >>= fun next =>
        finished (place ident labels value next)) = .ok out'' ∧
      (Value.object out').EqUpToOrder (.object out'') := by
  obtain ⟨next, hnext, hout'⟩ := bind_eq_ok_iff.mp h
  obtain ⟨inner, rfl, hadded, rfl⟩ := finished_place_eq_ok_iff.mp hnext
  obtain ⟨inner', rfl, hadded', rfl⟩ := finished_place_eq_ok_iff.mp hout'
  obtain ⟨hkeep', hgraft⟩ := graft_comm (.object inner) (.object inner') out hfront hback
  obtain ⟨hkeep, -⟩ := graft_comm (.object inner') (.object inner) out hback hfront
  refine ⟨_, ?_, hgraft⟩
  have hfirst := finished_place_eq_ok_iff.mpr ⟨inner', rfl, hkeep' ▸ hadded', rfl⟩
  have hsecond := finished_place_eq_ok_iff.mpr ⟨inner, rfl, hkeep.trans hadded, rfl⟩
  exact bind_eq_ok_iff.mpr ⟨_, hfirst, hsecond⟩

theorem place_comm (hfront : ¬ ident :: labels <+: ident' :: labels')
    (hback : ¬ ident' :: labels' <+: ident :: labels) :
    AgreeUpToOrder
      (finished (place ident labels value out) >>= fun next =>
        finished (place ident' labels' value' next))
      (finished (place ident' labels' value' out) >>= fun next =>
        finished (place ident labels value next)) :=
  .of_ok (fun _ hout => exists_place_comm hfront hback hout) fun _ hout =>
    (exists_place_comm hback hfront hout).imp fun _ => And.left

theorem mergeStructure_congr (item : Structure)
    (h : (Value.object out).EqUpToOrder (.object out')) :
    AgreeUpToOrder (c.mergeStructure depth item out) (c.mergeStructure depth item out') := by
  rcases item with ⟨name, e⟩ | ⟨ident, labels, inner⟩
  · rw [mergeStructure_attribute, mergeStructure_attribute]
    exact .ok h
  · rw [mergeStructure_block, mergeStructure_block]
    exact place_congr h

theorem mergeBlocks_congr (structures : Body) (h : (Value.object out).EqUpToOrder (.object out')) :
    AgreeUpToOrder (finished (c.mergeBlocks depth structures out))
      (finished (c.mergeBlocks depth structures out')) := by
  induction structures generalizing out out' with
  | nil => exact .ok h
  | cons item rest ih =>
      rw [finished_mergeBlocks_cons, finished_mergeBlocks_cons]
      exact (mergeStructure_congr item h).bind fun next next' hnext => ih hnext

theorem bind_mergeStructure_attribute (x : Except ConvertError Object) (name : String) (e : Expr) :
    x >>= c.mergeStructure depth (.attribute name e) = x := bind_pure x

theorem mergeStructure_comm {first second : Structure} (h : ¬ Tied first.path? second.path?)
    (out : Object) :
    AgreeUpToOrder (c.mergeStructure depth first out >>= c.mergeStructure depth second)
      (c.mergeStructure depth second out >>= c.mergeStructure depth first) := by
  rcases first with ⟨name, e⟩ | ⟨ident, labels, inner⟩
  · rw [mergeStructure_attribute, ok_bind, bind_mergeStructure_attribute]
    exact .refl _
  · rcases second with ⟨name', e'⟩ | ⟨ident', labels', inner'⟩
    · rw [mergeStructure_attribute, ok_bind, bind_mergeStructure_attribute]
      exact .refl _
    · obtain ⟨hfront, hback⟩ := not_or.mp h
      exact place_comm hfront hback

theorem mergeBlocks_exchanged (h : Exchanged structures structures') (out : Object) :
    AgreeUpToOrder (finished (c.mergeBlocks depth structures out))
      (finished (c.mergeBlocks depth structures' out)) := by
  induction h generalizing out with
  | refl structures => exact .refl _
  | cons item _ ih =>
      rw [finished_mergeBlocks_cons, finished_mergeBlocks_cons]
      cases c.mergeStructure depth item out with
      | error e => exact .error e e
      | ok next => exact ih next
  | swap first second rest h =>
      simp only [finished_mergeBlocks_cons, ← bind_assoc]
      exact (mergeStructure_comm h out).bind fun next next' hnext => mergeBlocks_congr rest hnext
  | trans _ _ ih ih' => exact (ih out).trans (ih' out)

/-- Attributes are never exchanged with each other. -/
theorem attributes_exchanged (h : Exchanged structures structures') :
    c.attributes depth structures = c.attributes depth structures' := by
  induction h with
  | refl => rfl
  | cons item _ ih =>
      rcases item with ⟨name, e⟩ | ⟨ident, labels, inner⟩
      · simp only [attributes, ih]
      · exact ih
  | swap first second rest h =>
      rcases first with ⟨name, e⟩ | ⟨ident, labels, inner⟩
      · rcases second with ⟨name', e'⟩ | ⟨ident', labels', inner'⟩
        · exact absurd trivial h
        · rfl
      · rcases second with ⟨name', e'⟩ | ⟨ident', labels', inner'⟩
        · rfl
        · rfl
  | trans _ _ ih ih' => exact ih.trans ih'

theorem body_exchanged (h : Exchanged structures structures') :
    AgreeUpToOrder (c.body depth structures) (c.body depth structures') := by
  rw [body_eq_bind, body_eq_bind]
  cases c.descend depth with
  | error e => exact .error e e
  | ok level =>
      rw [ok_bind, ok_bind, attributes_exchanged h]
      cases c.attributes level structures' with
      | error e => exact .error e e
      | ok entries => exact mergeBlocks_exchanged h _

/-- Blocks whose paths branch off from each other may be merged in either order, into whatever
object: both orders succeed, with the same entries up to the order of keys, or both fail. So the
structures of a body may be in any order in which attributes, and blocks one of whose paths is the
beginning of the other, follow each other as before; only which of several errors there is may then
be different. -/
theorem blocks_commute (c : Conversion) :
    (∀ (depth depth' : Nat) (ident ident' : String) (labels labels' : List String)
      (inner inner' : Body) (out : Object),
      ¬ ident :: labels <+: ident' :: labels' → ¬ ident' :: labels' <+: ident :: labels →
      AgreeUpToOrder
        (finished (c.mergeBlock depth ident labels inner out) >>= fun next =>
          finished (c.mergeBlock depth' ident' labels' inner' next))
        (finished (c.mergeBlock depth' ident' labels' inner' out) >>= fun next =>
          finished (c.mergeBlock depth ident labels inner next))) ∧
    ∀ (depth : Nat) (structures reordered : Body), Reordered structures reordered →
      AgreeUpToOrder (c.body depth structures) (c.body depth reordered) := by
  constructor
  · intro depth depth' ident ident' labels labels' inner inner' out hfront hback
    exact place_comm hfront hback
  · intro depth structures reordered h
    exact body_exchanged h.exchanged

/-- Two blocks with a label, with an attribute and a block of another name around and between them. -/
def scattered : Body :=
  [.block "a" ["x"] [], .attribute "k" (.null .nowhere), .block "b" [] [], .block "a" ["y"] []]

def gathered : Body :=
  [.attribute "k" (.null .nowhere), .block "a" ["y"] [], .block "a" ["x"] [], .block "b" [] []]

/-- The labels `x` and `y` come in the other order, and `b` comes behind `a`. -/
theorem blocks_commute_scattered :
    Reordered scattered gathered ∧
    AgreeUpToOrder (Conversion.body ⟨[], {}⟩ 0 scattered) (Conversion.body ⟨[], {}⟩ 0 gathered) ∧
    Conversion.body ⟨[], {}⟩ 0 scattered =
      .ok [("k", .null), ("a", .object [("x", .object []), ("y", .object [])]),
        ("b", .object [])] ∧
    AgreeUpToOrder
      (finished (Conversion.mergeBlock ⟨[], {}⟩ 0 "a" ["x"] [] []) >>= fun next =>
        finished (Conversion.mergeBlock ⟨[], {}⟩ 0 "a" ["y"] [] next))
      (finished (Conversion.mergeBlock ⟨[], {}⟩ 0 "a" ["y"] [] []) >>= fun next =>
        finished (Conversion.mergeBlock ⟨[], {}⟩ 0 "a" ["x"] [] next)) := by
  have hexchanged : Exchanged scattered gathered := by
    refine .trans (.swap _ _ _ (by decide)) (.cons _ ?_)
    exact .trans (.cons _ (.swap _ _ _ (by decide))) (.swap _ _ _ (by decide))
  refine ⟨hexchanged.reordered, ?_, rfl, ?_⟩
  · exact (blocks_commute ⟨[], {}⟩).2 0 scattered gathered hexchanged.reordered
  · exact (blocks_commute ⟨[], {}⟩).1 0 0 "a" "a" ["x"] ["y"] [] [] [] (by decide) (by decide)

end Conversion

end HclToJson
