import HclToJson.Proofs.Convert.Embedding
import HclToJson.Proofs.Static

namespace HclToJson

/-- A key that is a name: an identifier, or a string that may be wrapped. -/
inductive Key.Spells : Key → String → Prop
  | ident (name : String) : Spells (.ident name) name
  | string {n : Nat} {layout : Layout} {name : String} {outer : Expr}
      (h : (Expr.string layout name).WrappedIn n outer) : Spells (.expr outer) name

/-- An item of an object, with the entry that it writes out. -/
structure LiteralItem where
  layout : Layout
  key : Key
  expr : Expr
  name : String
  value : Value

namespace LiteralItem

def item (written : LiteralItem) : Item := .mk written.layout written.key written.expr

def entry (written : LiteralItem) : String × Value := (written.name, written.value)

end LiteralItem

/-- An expression that writes out a value literally. If an object gives a key more than once, the
last value counts, at the place of the first. -/
inductive Expr.Writes : Expr → Value → Prop
  | null (layout : Layout) : Writes (.null layout) .null
  | bool (layout : Layout) (value : Bool) : Writes (.bool layout value) (.boolean value)
  | integer (layout : Layout) (value : Int64) (fits : FitsNumber value.toInt) :
      Writes (.number layout (.int value.toInt fits)) (.integer value)
  | decimal (layout : Layout) (value : Float) :
      Writes (.number layout (.float value)) (.decimal value)
  | string (layout : Layout) (value : String) : Writes (.string layout value) (.string value)
  | array (layout : Layout) (items : List (Expr × Value))
      (each : ∀ item ∈ items, Writes item.1 item.2) :
      Writes (.array layout (items.map (·.1))) (.array (items.map (·.2)))
  | object (layout : Layout) (items : List LiteralItem) (entries : List (String × Value))
      (keys : ∀ item ∈ items, item.key.Spells item.name)
      (each : ∀ item ∈ items, Writes item.expr item.value)
      (last : Entries.LastWins (items.map (·.entry)) entries) :
      Writes (.object layout (items.map (·.item))) (.object entries)
  | quote {e : Expr} {value : Value} (h : Writes e value) (layout inside : Layout) (trim : Trim) :
      Writes (.template layout [.interpolation inside trim e]) value

mutual

/-- A value in which no object has a key twice. -/
def Value.Distinct : Value → Prop
  | .null | .boolean _ | .integer _ | .decimal _ | .string _ => True
  | .array items => itemsDistinct items
  | .object entries => (Entries.keys entries).Nodup ∧ entriesDistinct entries

def Value.itemsDistinct : List Value → Prop
  | [] => True
  | item :: rest => item.Distinct ∧ itemsDistinct rest

def Value.entriesDistinct : List (String × Value) → Prop
  | [] => True
  | (_, value) :: rest => value.Distinct ∧ entriesDistinct rest

end

/-- Keys that are given once stand in the order in which they are given. -/
theorem Expr.Writes.object_of_nodup (layout : Layout) {items : List LiteralItem}
    (hnodup : (items.map (·.name)).Nodup) (hkeys : ∀ item ∈ items, item.key.Spells item.name)
    (heach : ∀ item ∈ items, item.expr.Writes item.value) :
    (Expr.object layout (items.map (·.item))).Writes (.object (items.map (·.entry))) := by
  apply Writes.object layout items _ hkeys heach
  have hlast := Entries.lastWins_ofList (items.map (·.entry))
  rwa [Entries.ofList_eq_self (by rwa [List.map_map])] at hlast

mutual

theorem Value.exists_writes : (value : Value) → value.Distinct → ∃ e : Expr, e.Writes value
  | .null, _ => ⟨_, .null .nowhere⟩
  | .boolean value, _ => ⟨_, .bool .nowhere value⟩
  | .integer value, _ => by
      have hlow := Int64.le_toInt value
      have hhigh := Int64.toInt_lt value
      exact ⟨_, .integer .nowhere value ⟨by omega, by omega⟩⟩
  | .decimal value, _ => ⟨_, .decimal .nowhere value⟩
  | .string value, _ => ⟨_, .string .nowhere value⟩
  | .array values, h => by
      obtain ⟨items, rfl, heach⟩ := Value.exists_items values h
      exact ⟨_, .array .nowhere items heach⟩
  | .object entries, h => by
      obtain ⟨hnodup, hentries⟩ := h
      obtain ⟨items, rfl, hkeys, heach⟩ := Value.exists_literalItems entries hentries
      rw [Entries.keys, List.map_map] at hnodup
      exact ⟨_, .object_of_nodup .nowhere hnodup hkeys heach⟩

theorem Value.exists_items : (values : List Value) → Value.itemsDistinct values →
    ∃ items : List (Expr × Value), items.map (·.2) = values ∧ ∀ item ∈ items, item.1.Writes item.2
  | [], _ => ⟨[], rfl, nofun⟩
  | value :: rest, h => by
      obtain ⟨e, he⟩ := Value.exists_writes value h.1
      obtain ⟨items, rfl, heach⟩ := Value.exists_items rest h.2
      exact ⟨(e, value) :: items, rfl, List.forall_mem_cons.mpr ⟨he, heach⟩⟩

theorem Value.exists_literalItems : (entries : List (String × Value)) →
    Value.entriesDistinct entries → ∃ items : List LiteralItem, items.map (·.entry) = entries ∧
      (∀ item ∈ items, item.key.Spells item.name) ∧ ∀ item ∈ items, item.expr.Writes item.value
  | [], _ => ⟨[], rfl, nofun, nofun⟩
  | (name, value) :: rest, h => by
      obtain ⟨e, he⟩ := Value.exists_writes value h.1
      obtain ⟨items, rfl, hkeys, heach⟩ := Value.exists_literalItems rest h.2
      exact ⟨⟨.nowhere, .ident name, e, name, value⟩ :: items, rfl,
        List.forall_mem_cons.mpr ⟨.ident name, hkeys⟩, List.forall_mem_cons.mpr ⟨he, heach⟩⟩

end

namespace Conversion

open HclToJson.Expr

variable {c : Conversion} {depth n : Nat} {e outer : Expr}

theorem expression_of_literal {literal : Static} (h : e.literal? = some literal)
    (hlevel : depth < c.options.maxDepth) : c.expression depth e = .ok literal.toValue := by
  cases e with
  | null | bool | number | string =>
      cases h
      rw [expression, discard_bind, descend_of_lt hlevel]
      rfl
  | _ => cases h

theorem partLevels_wrapped (h : e.WrappedIn n outer) : outer.partLevels = e.partLevels + n := by
  induction h with
  | refl => rfl
  | quote h layout inside trim ih =>
      rw [partLevels, partsLevels, partsLevels, Nat.max_zero, ih, Nat.add_assoc]

theorem stringPart_string {layout : Layout} {name : String} (hlevel : depth < c.options.maxDepth) :
    c.stringPart depth (.string layout name) = .ok name := by
  rw [stringPart, discard_bind, descend_of_lt hlevel]
  rfl

theorem objectKey_of_wrapped {layout : Layout} {name : String}
    (h : (Expr.string layout name).WrappedIn n outer) :
    c.objectKey depth (.expr outer) = c.stringPart depth outer := by
  cases h with
  | refl => rfl
  | quote => rfl

theorem keyLevels_of_wrapped {layout : Layout} {name : String}
    (h : (Expr.string layout name).WrappedIn n outer) : keyLevels (.expr outer) = 1 + n := by
  have hpart : outer.partLevels = 1 + n := partLevels_wrapped h
  rw [← hpart]
  cases h with
  | refl => rfl
  | quote => rfl

theorem objectKey_of_spells {key : Key} {name : String} (h : key.Spells name)
    (hlevels : depth + keyLevels key ≤ c.options.maxDepth) : c.objectKey depth key = .ok name := by
  cases h with
  | ident => rfl
  | string h =>
      rw [keyLevels_of_wrapped h] at hlevels
      rw [objectKey_of_wrapped h, stringPart_wrapped h, stringPart_string (by omega)]

/-- If each of some expressions is converted to a value, then all of them are to all the values. -/
theorem expressions_of_forall {items : List (Expr × Value)}
    (heach : ∀ item ∈ items, depth + item.1.levels ≤ c.options.maxDepth →
      c.expression depth item.1 = .ok item.2)
    (hlevels : depth + itemsLevels (items.map (·.1)) ≤ c.options.maxDepth) :
    c.expressions depth (items.map (·.1)) = .ok (items.map (·.2)) := by
  induction items with
  | nil => rfl
  | cons item rest ih =>
      obtain ⟨hitem, hrest⟩ := List.forall_mem_cons.mp heach
      rw [List.map_cons, itemsLevels] at hlevels
      rw [List.map_cons, expressions, hitem (by omega), ok_bind, ih hrest (by omega)]
      rfl

theorem objectItems_of_forall {items : List LiteralItem}
    (hkeys : ∀ item ∈ items, item.key.Spells item.name)
    (heach : ∀ item ∈ items, depth + item.expr.levels ≤ c.options.maxDepth →
      c.expression depth item.expr = .ok item.value)
    (hlevels : depth + entriesLevels (items.map (·.item)) ≤ c.options.maxDepth) :
    c.objectItems depth (items.map (·.item)) = .ok (items.map (·.entry)) := by
  induction items with
  | nil => rfl
  | cons item rest ih =>
      obtain ⟨hitem, hrest⟩ := List.forall_mem_cons.mp heach
      obtain ⟨hkey, hothers⟩ := List.forall_mem_cons.mp hkeys
      rw [List.map_cons, LiteralItem.item, entriesLevels] at hlevels
      rw [List.map_cons, LiteralItem.item, objectItems, objectKey_of_spells hkey (by omega),
        ok_bind, hitem (by omega), ok_bind, ih hothers hrest (by omega)]
      rfl

theorem expression_of_writes {value : Value} (h : e.Writes value)
    (hlevels : depth + e.levels ≤ c.options.maxDepth) : c.expression depth e = .ok value := by
  induction h generalizing depth with
  | null layout =>
      rw [expression_of_literal rfl hlevels]
      rfl
  | bool layout value =>
      rw [expression_of_literal rfl hlevels]
      rfl
  | integer layout value fits =>
      rw [expression_of_literal rfl hlevels, Static.toValue_int]
  | decimal layout value =>
      rw [expression_of_literal rfl hlevels]
      rfl
  | string layout value =>
      rw [expression_of_literal rfl hlevels]
      rfl
  | array layout items each ih =>
      rw [levels] at hlevels
      rw [expression, descend_of_lt (by omega), ok_bind,
        expressions_of_forall (fun item hitem => ih item hitem) (by omega)]
      rfl
  | object layout items entries keys each last ih =>
      rw [levels] at hlevels
      rw [expression, descend_of_lt (by omega), ok_bind,
        objectItems_of_forall keys (fun item hitem => ih item hitem) (by omega), last.eq_ofList]
      rfl
  | quote h layout inside trim ih =>
      rw [levels] at hlevels
      rw [expression, descend_of_lt (by omega), ok_bind, ih (by omega)]

/-- An object of literal items is converted to the entries that its items stand for: all of them in
order if no key is repeated, and else the last ones at the places of the first. -/
theorem expression_object (layout : Layout) {items : List LiteralItem}
    (hkeys : ∀ item ∈ items, item.key.Spells item.name)
    (heach : ∀ item ∈ items, item.expr.Writes item.value) :
    ∃ entries, Entries.LastWins (items.map (·.entry)) entries ∧
      ((items.map (·.name)).Nodup → entries = items.map (·.entry)) ∧
      ∀ (c : Conversion) depth,
        depth + (Expr.object layout (items.map (·.item))).levels ≤ c.options.maxDepth →
        c.expression depth (.object layout (items.map (·.item))) = .ok (.object entries) := by
  have hlast := Entries.lastWins_ofList (items.map (·.entry))
  refine ⟨_, hlast, fun hnodup => Entries.ofList_eq_self (by rwa [List.map_map]), ?_⟩
  intro c depth hlevels
  exact expression_of_writes (.object layout items _ hkeys heach hlast) hlevels

/-- Every value in which no object has a key twice is written out by an expression. With the levels
that it needs, whatever the other options are, an expression is converted to the value that it
writes out, and so is an object, in which a key may be repeated. -/
theorem literals_convert_to_themselves :
    (∀ value : Value, value.Distinct → ∃ e : Expr, e.Writes value) ∧
    (∀ (c : Conversion) (e : Expr) (value : Value) (depth : Nat), e.Writes value →
      depth + e.levels ≤ c.options.maxDepth → c.expression depth e = .ok value) ∧
    ∀ (layout : Layout) (items : List LiteralItem), (∀ item ∈ items, item.key.Spells item.name) →
      (∀ item ∈ items, item.expr.Writes item.value) →
      ∃ entries, Entries.LastWins (items.map (·.entry)) entries ∧
        ((items.map (·.name)).Nodup → entries = items.map (·.entry)) ∧
        ∀ (c : Conversion) depth,
          depth + (Expr.object layout (items.map (·.item))).levels ≤ c.options.maxDepth →
          c.expression depth (.object layout (items.map (·.item))) = .ok (.object entries) := by
  refine ⟨Value.exists_writes, ?_, ?_⟩
  · intro c e value depth h hlevels
    exact expression_of_writes h hlevels
  · intro layout items hkeys heach
    exact expression_object layout hkeys heach

/-- `{ a = 1, "${"b"}" = "${[null, 2.5]}", "a" = "x" }` -/
def repeatedKey : List LiteralItem :=
  let layout := Layout.nowhere
  let trim : Trim := ⟨false, false⟩
  [⟨layout, .ident "a", .number layout (.int (Int64.toInt 1) (by decide)), "a", .integer 1⟩,
    ⟨layout, .expr (.template layout [.interpolation layout trim (.string layout "b")]),
      .template layout [.interpolation layout trim
        (.array layout [.null layout, .number layout (.float 2.5)])],
      "b", .array [.null, .decimal 2.5]⟩,
    ⟨layout, .expr (.string layout "a"), .string layout "x", "a", .string "x"⟩]

def repeatedKeyEntries : List (String × Value) :=
  [("a", .string "x"), ("b", .array [.null, .decimal 2.5])]

theorem repeatedKey_spells : ∀ item ∈ repeatedKey, item.key.Spells item.name :=
  List.forall_mem_cons.mpr ⟨.ident "a", List.forall_mem_cons.mpr
    ⟨.string (.quote .refl _ _ _), List.forall_mem_singleton.mpr (.string .refl)⟩⟩

theorem repeatedKey_writes : ∀ item ∈ repeatedKey, item.expr.Writes item.value := by
  have harray := Writes.array .nowhere
    [(Expr.null .nowhere, .null), (.number .nowhere (.float 2.5), .decimal 2.5)]
    (List.forall_mem_cons.mpr ⟨.null _, List.forall_mem_singleton.mpr (.decimal _ _)⟩)
  exact List.forall_mem_cons.mpr ⟨.integer _ 1 _, List.forall_mem_cons.mpr
    ⟨.quote harray _ _ _, List.forall_mem_singleton.mpr (.string _ "x")⟩⟩

/-- The second `a` takes the place of the first. -/
theorem literals_convert_to_themselves_repeated :
    (∃ e : Expr, e.Writes (.object repeatedKeyEntries)) ∧
    Conversion.expression ⟨[], { maxDepth := 4 }⟩ 0
        (.object .nowhere (repeatedKey.map (·.item))) = .ok (.object repeatedKeyEntries) ∧
      ∃ entries, Entries.LastWins (repeatedKey.map (·.entry)) entries ∧
        Conversion.expression ⟨[], { maxDepth := 4 }⟩ 0
          (.object .nowhere (repeatedKey.map (·.item))) = .ok (.object entries) := by
  have hdistinct : (Value.object repeatedKeyEntries).Distinct := by
    simp [repeatedKeyEntries, Value.Distinct, Value.entriesDistinct, Value.itemsDistinct]
  have hwrites := Writes.object .nowhere repeatedKey repeatedKeyEntries repeatedKey_spells
    repeatedKey_writes (Entries.lastWins_ofList (repeatedKey.map (·.entry)))
  obtain ⟨hwritten, hconverts, hobject⟩ := literals_convert_to_themselves
  obtain ⟨entries, hlast, -, hentries⟩ :=
    hobject .nowhere repeatedKey repeatedKey_spells repeatedKey_writes
  exact ⟨hwritten _ hdistinct, hconverts _ _ _ _ hwrites (by decide),
    entries, hlast, hentries _ _ (by decide)⟩

end Conversion

end HclToJson
