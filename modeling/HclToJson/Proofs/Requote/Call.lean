import HclToJson.Proofs.Requote.Array

namespace HclToJson.Grammar

open Comment Text HclToJson.Parser

section

variable {behind text text' : Bytes} {bound braces : Nat} {outer : List Frame} {c c' d : Cursor}
  {nested nested' : Nested}

/-! ### Arguments -/

theorem argumentsEnd_eq_ok {spread : Bool} (h : argumentsEnd c = .ok (spread, d)) :
    (spread = false ∧ byte Byte.comma c = .ok (⟨⟩, d)) ∨
      (spread = true ∧ exactly [Byte.dot, Byte.dot, Byte.dot] c = .ok (⟨⟩, d)) ∨
      (spread = false ∧ d = c) := by
  obtain ⟨comma, c₁, hcomma, hrun⟩ := bind_eq_ok.mp h
  rcases flag_cases hcomma with ⟨rfl, hbyte⟩ | ⟨rfl, rfl, -⟩
  · cases hrun
    exact Or.inl ⟨rfl, hbyte⟩
  · exact Or.inr (ellipsis_eq_ok hrun)

theorem argumentsEnd_comma (h : byte Byte.comma c = .ok (⟨⟩, d)) :
    argumentsEnd c = .ok (false, d) :=
  bind_ok (flag_of_byte h) rfl

theorem argumentsEnd_of_miss {spread : Bool} (h : byte Byte.comma c = .error .miss)
    (hdots : ellipsis c = .ok (spread, d)) : argumentsEnd c = .ok (spread, d) :=
  bind_ok (flag_of_miss h) hdots

/-- The bytes that no argument of a call starts with. -/
def argumentEnds : List UInt8 := [Byte.comma, Byte.dot, Byte.closeParen]

theorem callArguments_eq_ok {arguments : List (Located Expr)} {spread : Bool}
    (h : callArguments nested c = .ok ((arguments, spread), d)) :
    ∃ c₁ c₂ c₃, commaSeparated nested argumentEnds c = .ok (arguments, c₁) ∧
      Tail argumentsEnd arguments c₁ spread c₂ ∧ blankLines c₂ = .ok (⟨⟩, c₃) ∧
      byte Byte.closeParen c₃ = .ok (⟨⟩, d) := by
  obtain ⟨arguments', c₁, harguments, h⟩ := bind_eq_ok.mp h
  cases arguments' with
  | nil =>
      obtain ⟨_, c₂, hspread, h⟩ := bind_eq_ok.mp h
      cases hspread
      obtain ⟨_, c₃, hblank, h⟩ := bind_eq_ok.mp h
      obtain ⟨_, c₄, hclose, h⟩ := bind_eq_ok.mp h
      cases h
      exact ⟨c₁, c₁, c₃, harguments, Or.inl ⟨rfl, rfl, rfl⟩, hblank, must_eq_ok.mp hclose⟩
  | cons first others =>
      obtain ⟨_, c₂, hspread, h⟩ := bind_eq_ok.mp h
      obtain ⟨_, c₃, hblank, h⟩ := bind_eq_ok.mp h
      obtain ⟨_, c₄, hclose, h⟩ := bind_eq_ok.mp h
      cases h
      exact ⟨c₁, c₂, c₃, harguments, Or.inr ⟨List.cons_ne_nil _ _, hspread⟩, hblank,
        must_eq_ok.mp hclose⟩

theorem callArguments_ok {arguments : List (Located Expr)} {spread : Bool} {c₁ c₂ c₃ : Cursor}
    (harguments : commaSeparated nested argumentEnds c = .ok (arguments, c₁))
    (htail : Tail argumentsEnd arguments c₁ spread c₂) (hblank : blankLines c₂ = .ok (⟨⟩, c₃))
    (hclose : byte Byte.closeParen c₃ = .ok (⟨⟩, d)) :
    callArguments nested c = .ok ((arguments, spread), d) := by
  refine bind_ok (p := commaSeparated nested argumentEnds) harguments ?_
  rcases htail with ⟨rfl, rfl, rfl⟩ | ⟨hne, hspread⟩
  · exact bind_ok (pure_eq false c₂) (bind_ok hblank (bind_ok (must_eq_ok.mpr hclose) rfl))
  · obtain ⟨first, others, rfl⟩ := List.exists_cons_of_ne_nil hne
    exact bind_ok hspread (bind_ok hblank (bind_ok (must_eq_ok.mpr hclose) rfl))

theorem listEnd_of_arguments {arguments : List (Located Expr)} {spread : Bool}
    (htail : Tail argumentsEnd arguments c spread d) (hd : d.rest = text' ++ behind)
    (hahead : Ahead behind Byte.closeParen d) : ListEnd behind argumentEnds arguments c := by
  have hclosing : Closing behind argumentEnds d := ⟨_, by decide, by decide, hahead⟩
  rcases htail with ⟨rfl, -, rfl⟩ | ⟨hne, hend⟩
  · exact Or.inl hclosing
  · rcases argumentsEnd_eq_ok hend with ⟨-, hcomma⟩ | ⟨-, hdots⟩ | ⟨-, rfl⟩
    · exact Or.inr ⟨hne, d, hcomma, hclosing⟩
    · have hhead : c.rest = Byte.dot :: (Byte.dot :: Byte.dot :: text') ++ behind := by
        rw [exactly_eq_ok hdots, hd]
        rfl
      exact Or.inl ⟨Byte.dot, by decide, by decide, ahead_of_head (by decide) hhead⟩
    · exact Or.inl hclosing

/-- The last argument of a call ends in front of what closes the call. -/
theorem ended_of_argumentsEnd {arguments : List (Located Expr)} {spread : Bool} {v : Located Expr}
    (hv : v ∈ arguments.getLast?) (htail : Tail argumentsEnd arguments c spread d)
    (hd : d.rest = text' ++ behind) (hahead : Ahead behind Byte.closeParen d)
    (hsteps : (spread && (arguments.map (·.value)).getLast?.any (·.endsInSteps)) = false)
    (hc : c.rest = text ++ behind) (h : Fit (.within (.code braces) outer) text) :
    Ended v.value (squeeze (uncommented (.within (.code braces) outer) text)) := by
  rcases htail with ⟨rfl, -, -⟩ | ⟨-, hend⟩
  · cases hv
  · rcases argumentsEnd_eq_ok hend with ⟨-, hcomma⟩ | ⟨rfl, hdots⟩ | ⟨-, rfl⟩
    · exact (ahead_of_byte (by decide) hcomma hd).ended (by decide) v.value hc h
    · refine ended_before_ellipsis ?_ hdots hd hc h
      simpa [List.getLast?_map, Option.mem_def.mp hv] using hsteps
    · exact hahead.ended (by decide) v.value hc h

theorem retrace_argumentsEnd {arguments arguments' : List (Located Expr)} {spread : Bool}
    (h : Tracks behind (.within (.code braces) outer) text c c')
    (hsame : arguments'.isEmpty = arguments.isEmpty)
    (hrun : Tail argumentsEnd arguments c spread d) (hahead : Ahead behind Byte.closeParen d)
    (hd : d.rest = text' ++ behind) :
    ∃ d', Tail argumentsEnd arguments' c' spread d' ∧
      Tracks behind (.within (.code braces) outer) text' d d' ∧
        d'.rest.length ≤ c'.rest.length := by
  have hnil : arguments' = [] ↔ arguments = [] := by
    rw [← List.isEmpty_iff, ← List.isEmpty_iff, hsame]
  rcases hrun with ⟨hempty, rfl, rfl⟩ | ⟨hne, hend⟩
  · obtain rfl := List.append_cancel_right (h.rest.symm.trans hd)
    exact ⟨c', Or.inl ⟨hnil.mpr hempty, rfl, rfl⟩, h, Nat.le_refl _⟩
  · have hne' : arguments' ≠ [] := fun hempty => hne (hnil.mp hempty)
    rcases argumentsEnd_eq_ok hend with ⟨rfl, hcomma⟩ | ⟨rfl, hdots⟩ | ⟨rfl, rfl⟩
    · obtain ⟨-, d', hcomma', htracks, hlength, -⟩ := retrace_byte h (by decide) hcomma hd
      exact ⟨d', Or.inr ⟨hne', argumentsEnd_comma hcomma'⟩, htracks, Nat.le_of_lt hlength⟩
    · obtain ⟨-, d', hdots', htracks, hlength, -⟩ :=
        retrace_exactly h (by simp) (forall_mem_of_all rfl) hdots hd
      have hmiss : byte Byte.comma c' = .error .miss := byte_miss fun hhead => by
        rw [exactly_eq_ok hdots'] at hhead
        exact absurd (Option.some.inj hhead) (by decide)
      exact ⟨d', Or.inr ⟨hne', argumentsEnd_of_miss hmiss (ellipsis_ok hdots')⟩, htracks,
        Nat.le_of_lt hlength⟩
    · obtain rfl := List.append_cancel_right (h.rest.symm.trans hd)
      have hmiss : byte Byte.comma c' = .error .miss := hahead.exactly_miss h rfl (by decide)
      have hdots : exactly [Byte.dot, Byte.dot, Byte.dot] c' = .error .miss :=
        hahead.exactly_miss h rfl (by decide)
      exact ⟨c', Or.inr ⟨hne', argumentsEnd_of_miss hmiss (ellipsis_miss hdots)⟩, h, Nat.le_refl _⟩

/-- The arguments of a call are read from both texts. -/
theorem retrace_callArguments (hn : NestedRetraces behind bound nested nested')
    (hends : Ends behind) (h : Tracks behind (.within (.code braces) outer) text c c')
    (hbound : c'.rest.length < bound) {arguments : List (Located Expr)} {spread : Bool}
    (hrun : callArguments nested c = .ok ((arguments, spread), d)) (hd : d.rest = text' ++ behind)
    (hsteps : (spread && (arguments.map (·.value)).getLast?.any (·.endsInSteps)) = false)
    (hjoin : Expr.joinableAll (arguments.map (·.value)) = true) :
    ∃ arguments' d', callArguments nested' c' = .ok ((arguments', spread), d') ∧
      Tracks behind (.within (.code braces) outer) text' d d' ∧
      d'.rest.length < c'.rest.length := by
  obtain ⟨c₁, c₂, c₃, harguments, htail, hblank, hclose⟩ := callArguments_eq_ok hrun
  obtain ⟨text₃, hc₃⟩ := (advances_byte _ c₃ hclose).inside hd
  obtain ⟨text₂, hc₂⟩ := (advances_blankLines c₂ hblank).inside hc₃
  obtain ⟨text₁, hc₁⟩ : ∃ text₁, c₁.rest = text₁ ++ behind := by
    rcases htail with ⟨-, -, rfl⟩ | ⟨-, hend⟩
    · exact ⟨text₂, hc₂⟩
    · exact (advances_argumentsEnd c₁ hend).inside hc₂
  have hahead : Ahead behind Byte.closeParen c₂ :=
    ⟨c₃, text', hblank, by rw [byte_eq_ok hclose, hd, List.cons_append]⟩
  obtain ⟨arguments', c₁', harguments', h₁, -, hlength₁, hsame⟩ := retrace_commaSeparated hn hends
    (forall_mem_of_all rfl) h hbound harguments hc₁ (listEnd_of_arguments htail hc₂ hahead)
    (fun v hv hfit => ended_of_argumentsEnd hv htail hc₂ hahead hsteps hc₁ hfit) hjoin
  obtain ⟨c₂', htail', h₂, hlength₂⟩ := retrace_argumentsEnd h₁ hsame htail hahead hc₂
  obtain ⟨c₃', hblank', h₃, -, -, hlength₃, -⟩ := retrace_blank h₂ hblank hc₃ true
  obtain ⟨-, d', hclose', htracks, hlength, -⟩ := retrace_byte h₃ (by decide) hclose hd
  exact ⟨arguments', d', callArguments_ok harguments' htail' hblank' hclose', htracks, by omega⟩

/-! ### Names -/

/-- What a name stands for that no arguments follow. -/
def nameExpr (layout : Layout) (name : String) : Expr :=
  if name = "null" then .null layout
  else if name = "true" then .bool layout true
  else if name = "false" then .bool layout false
  else .var layout name

theorem form_nameExpr (layout layout' : Layout) (name : String) :
    (nameExpr layout name).form = (nameExpr layout' name).form := by
  simp only [nameExpr]
  repeat' split
  all_goals rfl

theorem pure_nameExpr (layout : Layout) (name : String) :
    (if name = "null" then return .null layout
      else if name = "true" then return .bool layout true
      else if name = "false" then return .bool layout false
      else return .var layout name : Parser Expr) = pure (nameExpr layout name) := by
  simp only [nameExpr]
  repeat' split
  all_goals rfl

/-- Reads what opens the arguments of a call. -/
def openArguments : Parser Unit := do
  blankLines
  Parser.byte Byte.openParen

theorem named_eq_ok {e : Expr} (h : named nested c = .ok (e, d)) :
    ∃ name c₁, ident c = .ok (name, c₁) ∧
      ((∃ c₂ arguments spread layout, openArguments c₁ = .ok (⟨⟩, c₂) ∧
          callArguments nested c₂ = .ok ((arguments, spread), d) ∧
          e = .call layout name (arguments.map (·.value)) spread) ∨
        (d = c₁ ∧ openArguments c₁ = .error .miss ∧ ∃ layout, e = nameExpr layout name)) := by
  obtain ⟨_, _, hget, h⟩ := bind_eq_ok.mp h
  cases hget
  obtain ⟨name, c₁, hname, h⟩ := bind_eq_ok.mp h
  refine ⟨name, c₁, hname, ?_⟩
  obtain ⟨opening, c₂, hopening, hrun⟩ := bind_eq_ok.mp h
  rcases optional_eq_ok.mp hopening with ⟨⟨⟩, rfl, hopen⟩ | ⟨rfl, rfl, hmiss⟩
  · obtain ⟨⟨arguments, spread⟩, c₃, harguments, hrun⟩ := bind_eq_ok.mp hrun
    cases hrun
    exact Or.inl ⟨c₂, arguments, spread, _, hopen, harguments, rfl⟩
  · refine Or.inr ?_
    obtain ⟨layout, c₃, hlayout, hrun⟩ := bind_eq_ok.mp hrun
    obtain ⟨rfl, rfl⟩ : nameExpr layout name = e ∧ c₃ = d := by
      have hpure := (congrFun (pure_nameExpr layout name) c₃).symm.trans hrun
      cases hpure
      exact ⟨rfl, rfl⟩
    cases hlayout
    exact ⟨rfl, hmiss, _, rfl⟩

theorem named_call {name : String} {arguments : List (Located Expr)}
    {spread : Bool} {c₁ c₂ : Cursor}
    (hname : ident c = .ok (name, c₁)) (hopen : openArguments c₁ = .ok (⟨⟩, c₂))
    (harguments : callArguments nested c₂ = .ok ((arguments, spread), d)) :
    ∃ e, named nested c = .ok (e, d) ∧ e.form = .quoted :=
  ⟨.call _ name (arguments.map (·.value)) spread, bind_ok (get_eq c) (bind_ok hname
    (bind_ok (p := Parser.optional openArguments) (optional_ok hopen)
      (bind_ok harguments rfl))), rfl⟩

theorem named_name {name : String} (hname : ident c = .ok (name, d))
    (hmiss : openArguments d = .error .miss) :
    ∃ layout, named nested c = .ok (nameExpr layout name, d) := by
  obtain ⟨layout, hlayout⟩ : ∃ layout, layoutFrom c [] d = .ok (layout, d) := ⟨_, rfl⟩
  exact ⟨layout, bind_ok (get_eq c) (bind_ok hname
    (bind_ok (p := Parser.optional openArguments) (optional_miss hmiss)
      (bind_ok hlayout (congrFun (pure_nameExpr layout name) d))))⟩

/-- Where no arguments follow a name, none do in the squeezed text. -/
theorem openArguments_miss (h : Tracks behind (.within (.code braces) outer) text c c')
    (hmiss : openArguments c = .error .miss) : openArguments c' = .error .miss := by
  obtain ⟨d', hblank', hd', -⟩ := separator_tidy h true
  refine (bind_ok_eq (p := blankLines) hblank').trans (byte_miss fun hhead => ?_)
  rw [hd'] at hhead
  have hblank := separator_eq true c
  obtain ⟨text', hd⟩ := look h hblank (by decide) hhead
  obtain ⟨hfit, hsame, hsettled⟩ := retrace_separator h.fit h.rest hblank hd
  rw [hsame, head?_squeeze hfit (hsettled rfl)] at hhead
  obtain ⟨rest, rfl⟩ := List.head?_eq_some_iff.mp hhead
  obtain ⟨d₁, hbyte, -⟩ := byte_ok hd
  have hopen : openArguments c = .ok (⟨⟩, d₁) := bind_ok (p := blankLines) hblank hbyte
  rw [hmiss] at hopen
  cases hopen

/-- A name, or a call, is read from both texts. -/
theorem retrace_named (hn : NestedRetraces behind bound nested nested') (hends : Ends behind)
    (h : Tracks behind (.within (.code braces) outer) text c c') (hbound : c'.rest.length ≤ bound)
    {e : Expr} (hrun : named nested c = .ok (e, d)) (hd : d.rest = text' ++ behind)
    (hjoin : e.joinable = true) :
    ∃ e' d', named nested' c' = .ok (e', d') ∧
      Tracks behind (.within (.code braces) outer) text' d d' ∧
      d'.rest.length < c'.rest.length ∧ e'.form = e.form := by
  obtain ⟨name, c₁, hname, ⟨c₂, arguments, spread, layout, hopen, harguments, rfl⟩ |
    ⟨rfl, hmiss, layout, rfl⟩⟩ := named_eq_ok hrun
  · obtain ⟨_, c₃, hblank, hparen⟩ := bind_eq_ok.mp hopen
    simp only [Expr.joinable, Bool.and_eq_true, Bool.not_eq_true'] at hjoin
    obtain ⟨text₂, hc₂⟩ := (advances_callArguments hn.advances c₂ harguments).inside hd
    obtain ⟨text₃, hc₃⟩ := (advances_byte _ c₃ hparen).inside hc₂
    obtain ⟨text₁, hc₁⟩ := (advances_blankLines c₁ hblank).inside hc₃
    obtain ⟨c₁', hname', h₁, hlength₁⟩ := retrace_ident h hname hc₁
    obtain ⟨c₃', hblank', h₃, -, -, hlength₃, -⟩ := retrace_blank h₁ hblank hc₃ true
    obtain ⟨-, c₂', hparen', h₂, hlength₂, -⟩ := retrace_byte h₃ (by decide) hparen hc₂
    obtain ⟨arguments', d', harguments', htracks, hlength⟩ :=
      retrace_callArguments hn hends h₂ (by omega) harguments hd hjoin.1 hjoin.2
    obtain ⟨e', hrun', hform⟩ := named_call hname' (bind_ok hblank' hparen') harguments'
    exact ⟨e', d', hrun', htracks, by omega, hform⟩
  · obtain ⟨d', hname', htracks, hlength⟩ := retrace_ident h hname hd
    obtain ⟨layout', hrun'⟩ : ∃ layout, named nested' c' = .ok (nameExpr layout name, d') :=
      named_name hname' (openArguments_miss htracks hmiss)
    exact ⟨_, d', hrun', htracks, hlength, form_nameExpr layout' layout name⟩

end

end HclToJson.Grammar
