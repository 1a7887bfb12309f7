namespace HclToJson.Text

/-- White space as the Unicode property `White_Space` gives it. -/
def blankRanges : List (Nat × Nat) :=
  [(0x0009, 0x000D), (0x0020, 0x0020), (0x0085, 0x0085), (0x00A0, 0x00A0), (0x1680, 0x1680),
    (0x2000, 0x200A), (0x2028, 0x2029), (0x202F, 0x202F), (0x205F, 0x205F), (0x3000, 0x3000)]

def isBlank (c : Char) : Bool :=
  blankRanges.any fun (first, last) => first ≤ c.toNat && c.toNat ≤ last

/-- The longest runs of characters that are not white space, in order. -/
def words : List Char → List (List Char)
  | [] => []
  | c :: rest =>
      if isBlank c then words rest
      else
        match rest, words rest with
        | d :: _, word :: others =>
            if isBlank d then [c] :: word :: others else (c :: word) :: others
        | _, others => [c] :: others

def collapse (text : List Char) : List Char :=
  [' '].intercalate (words text)

def isInline (c : Char) : Bool := isBlank c && c ≠ '\r' && c ≠ '\n'

/-- A text without the white space at its start, up to and including the first line end. -/
def trimFront (text : List Char) : List Char :=
  match text.dropWhile isInline with
  | '\r' :: '\n' :: rest => rest
  | '\n' :: rest => rest
  | rest => rest

/-- A text without the white space at its end, from the last line end on. -/
def trimBack (text : List Char) : List Char :=
  match text.reverse.dropWhile isInline with
  | '\n' :: '\r' :: rest => rest.reverse
  | '\n' :: rest => rest.reverse
  | rest => rest.reverse

end HclToJson.Text
