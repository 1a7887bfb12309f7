import HclToJson.Proofs.Convert.Tidy
import HclToJson.Proofs.Grammar.Reference

namespace HclToJson.Grammar

open Text

def Selector.tidy : Selector → Selector
  | name gap n => name gap.tidy n
  | element gap index => element gap.tidy index
  | key ahead k behind => key ahead.tidy k behind.tidy

def Access.tidy (access : Access) : Access := ⟨access.before.tidy, access.selector.tidy⟩

def Reference.tidy (ref : Reference) : Reference := { ref with path := ref.path.map Access.tidy }

theorem Selector.bare_tidy (selector : Selector) : selector.tidy.bare = selector.bare := by
  cases selector <;> rfl

theorem Reference.bare_tidy (ref : Reference) : ref.tidy.bare = ref.bare := by
  have hpath : Path.bare (ref.path.map Access.tidy) = ref.path.bare := by
    simp only [Path.bare, List.map_map]
    exact List.map_congr_left fun access _ => access.selector.bare_tidy
  simp only [Reference.bare, Reference.tidy, List.isEmpty_map, hpath]

/-- A string is kept as it is if it has no two spaces in a row. -/
theorem collapseBehind_spaced {content : Bytes} (h : ∀ b ∈ content, Printable b)
    (hspaces : ¬ [Byte.space, Byte.space] <:+: content) (rest : List Char) :
    collapseBehind (asciiChars (content ++ [Byte.quote]) ++ rest) =
      asciiChars (content ++ [Byte.quote]) ++ collapseBehind rest := by
  have hgraphic : ∀ b : UInt8, 0x20 ≤ b ∧ b ≤ 0x7E → b ≠ Byte.space →
      isBlank (Char.ofNat b.toNat) = false := Byte.forall_of_lt (by decide +kernel)
  induction content with
  | nil => exact collapseBehind_cons_inked rfl rest
  | cons b content ih =>
      have hothers := ih (fun c hc => h c (List.mem_cons_of_mem b hc))
        (fun hpair => hspaces (hpair.trans (List.suffix_cons b content).isInfix))
      rw [List.cons_append, asciiChars_cons, List.cons_append, List.cons_append, ← hothers]
      by_cases hb : b = Byte.space
      · -- Behind a space there is no other one, so it is the only one that is left of its run.
        have hnext : ∃ c others, asciiChars (content ++ [Byte.quote]) = c :: others ∧
            isBlank c = false := by
          cases content with
          | nil => exact ⟨_, _, rfl, rfl⟩
          | cons c content =>
              refine ⟨_, _, rfl, hgraphic c (h c (by simp)).2 fun hc => hspaces ?_⟩
              exact ⟨[], content, by rw [hb, hc]; rfl⟩
        obtain ⟨c, others, hchars, hc⟩ := hnext
        have hspace : ∀ d ∈ [' '], isBlank d = true := List.forall_mem_singleton.mpr rfl
        rw [hb, hchars]
        exact collapseBehind_blanks hspace hc
      · exact collapseBehind_cons_inked (hgraphic b (h b List.mem_cons_self).2 hb) _

theorem FixedKey.collapseBehind_stripped (key : FixedKey) (rest : Bytes) :
    collapseBehind (stripped (key.bytes ++ rest)) =
      asciiChars key.bytes ++ collapseBehind (stripped rest) := by
  cases key with
  | numeral numeral => exact collapseBehind_code numeral.codeBytes rest
  | string content h hspaces =>
      have hquote : isBlank '"' = false := rfl
      rw [FixedKey.bytes, stripped_quoted h]
      exact (collapseBehind_cons_inked hquote _).trans
        (congrArg _ (collapseBehind_spaced h hspaces _))

theorem FixedKey.inky (key : FixedKey) (rest : Bytes) : Inky (key.bytes ++ rest) := by
  cases key with
  | numeral numeral => exact (numeral.codeBytes _ List.mem_cons_self).inky _
  | string content h hspaces => exact ⟨_, _, stripped_quoted h rest, rfl⟩

theorem FixedKey.ascii (key : FixedKey) : Ascii key.bytes := by
  cases key with
  | numeral numeral => exact fun b hb => (numeral.codeBytes b hb).2.1
  | string content h hspaces => exact ascii_quoted h

theorem Selector.inky (selector : Selector) (rest : Bytes) : Inky (selector.bytes ++ rest) := by
  have hdot : CodeByte Byte.dot := by decide
  have hopen : CodeByte Byte.openBracket := by decide
  cases selector with
  | name gap name => exact hdot.inky _
  | element gap index => exact hdot.inky _
  | key ahead key behind => exact hopen.inky _

theorem Selector.collapseBehind_stripped (selector : Selector) (rest : Bytes) :
    collapseBehind (stripped (selector.bytes ++ rest)) =
      asciiChars selector.tidy.bytes ++ collapseBehind (stripped rest) := by
  have hdot : CodeByte Byte.dot := by decide
  cases selector with
  | name gap name =>
      have hinky : Inky (name.bytes ++ rest) := (name.codeBytes _ List.mem_cons_self).inky _
      simp only [Selector.bytes, Selector.tidy, List.cons_append, List.append_assoc, asciiChars_cons,
        asciiChars_append]
      rw [collapseBehind_byte hdot, collapseBehind_gap gap hinky, collapseBehind_code name.codeBytes]
  | element gap index =>
      have hinky : Inky (index.val.bytes ++ rest) := (index.val.codeBytes _ List.mem_cons_self).inky _
      simp only [Selector.bytes, Selector.tidy, List.cons_append, List.append_assoc, asciiChars_cons,
        asciiChars_append]
      rw [collapseBehind_byte hdot, collapseBehind_gap gap hinky,
        collapseBehind_code index.val.codeBytes]
  | key ahead key behind =>
      have hopen : CodeByte Byte.openBracket := by decide
      have hclose : CodeByte Byte.closeBracket := by decide
      simp only [Selector.bytes, Selector.tidy, List.cons_append, List.append_assoc,
        List.nil_append, asciiChars_cons, asciiChars_append]
      rw [collapseBehind_byte hopen, collapseBehind_gap ahead (key.inky _),
        key.collapseBehind_stripped, collapseBehind_gap behind (hclose.inky rest), collapseBehind_byte hclose]
      rfl

theorem Path.collapseBehind_stripped (path : Path) :
    collapseBehind (stripped path.bytes) = asciiChars (Path.bytes (path.map Access.tidy)) := by
  induction path with
  | nil => rfl
  | cons access path ih =>
      rw [Path.bytes_cons, collapseBehind_gap access.before.val (access.selector.inky _),
        access.selector.collapseBehind_stripped, ih, List.map_cons, Path.bytes_cons,
        asciiChars_append, asciiChars_append]
      rfl

theorem normalize_reference (ref : Reference) :
    Source.normalize ref.bytes = String.ofList (asciiChars ref.tidy.bytes) := by
  refine normalize_of_inky ((ref.root.codeBytes _ List.mem_cons_self).inky _) ?_
  rw [Reference.bytes, collapseBehind_code ref.root.codeBytes, ref.path.collapseBehind_stripped,
    ← asciiChars_append]
  rfl

theorem Selector.ascii_tidy (selector : Selector) : Ascii selector.tidy.bytes := by
  cases selector with
  | name gap name =>
      have hname : Ascii name.bytes := fun b hb => (name.codeBytes b hb).2.1
      exact (gap.ascii_tidy.append hname).cons (by decide)
  | element gap index =>
      have hindex : Ascii index.val.bytes := fun b hb => (index.val.codeBytes b hb).2.1
      exact (gap.ascii_tidy.append hindex).cons (by decide)
  | key ahead key behind =>
      have hclose : Ascii [Byte.closeBracket] := Ascii.singleton (by decide)
      have hbehind := key.ascii.append (behind.ascii_tidy.append hclose)
      exact (ahead.ascii_tidy.append hbehind).cons (by decide)

theorem Reference.ascii_tidy (ref : Reference) : Ascii ref.tidy.bytes := by
  have hroot : Ascii ref.root.bytes := fun b hb => (ref.root.codeBytes b hb).2.1
  have hpath : Ascii (Path.bytes (ref.path.map Access.tidy)) := by
    induction ref.path with
    | nil => exact fun b hb => absurd hb List.not_mem_nil
    | cons access path ih =>
        rw [List.map_cons, Path.bytes_cons]
        exact (Gap.ascii_tidy access.before.val).append (access.selector.ascii_tidy.append ih)
  exact hroot.append hpath

/-- The quoted text of a reference is the reference with its blanks tidied up. -/
theorem encode_normalize_reference (ref : Reference) :
    encode (Source.normalize ref.bytes) = ref.tidy.bytes := by
  rw [normalize_reference, encode_asciiChars ref.ascii_tidy]

end HclToJson.Grammar
