import Wordcode.Text.Reader

/-!
# Lines of a listing

A line of a listing holds at most one token and then at most one comment, with blanks around the
token. `HasToken` says so as a grammar. `token?` finds the token by reading the line once from
left to right, and `LineReader.line` does so with readers put together: a token, which may be
missing, and a comment, which may be missing as well, with blanks skipped before either. Tokens end
at what Unicode calls white space, and blanks are only two of these characters.
-/

namespace Wordcode

/-! ### White space -/

namespace Text

/-- The code points with the property White_Space, as ranges from first to last, ascending. -/
def whiteSpaceRanges : List (Nat × Nat) :=
  [(0x0009, 0x000D), (0x0020, 0x0020), (0x0085, 0x0085), (0x00A0, 0x00A0), (0x1680, 0x1680),
   (0x2000, 0x200A), (0x2028, 0x2029), (0x202F, 0x202F), (0x205F, 0x205F), (0x3000, 0x3000)]

def isWhiteSpace (c : Char) : Bool :=
  whiteSpaceRanges.any fun r => decide (r.1 ≤ c.toNat ∧ c.toNat ≤ r.2)

/-- A blank is a space or a tabulator. -/
def isBlank (c : Char) : Bool := c == ' ' || c == '\t'

/-- The text without the white space at its two ends. -/
def trim (s : List Char) : List Char :=
  ((s.dropWhile isWhiteSpace).reverse.dropWhile isWhiteSpace).reverse

example : (whiteSpaceRanges.map fun r => r.2 + 1 - r.1).sum = 25 := rfl

theorem isWhiteSpace_of_isBlank {c : Char} (h : isBlank c = true) : isWhiteSpace c = true := by
  simp only [isBlank, Bool.or_eq_true, beq_iff_eq] at h
  rcases h with rfl | rfl <;> decide

end Text

namespace Listing

/-! ### Characters of a line -/

/-- A token runs on to white space or to the start of a comment (`word_token_p`). -/
def isTokenChar (c : Char) : Bool := !Text.isWhiteSpace c && c != '#'

/-- A comment runs on to the first character of a line's end (`comment_p`). -/
def isCommentChar (c : Char) : Bool := c != '\r' && c != '\n'

/-! ### Grammar -/

/-- A comment, or nothing. -/
def IsComment (s : List Char) : Prop :=
  s = [] ∨ ∃ body, s = '#' :: body ∧ ∀ c ∈ body, isCommentChar c = true

/-- The line is well formed and its token, empty if it has none, is `token`. -/
def HasToken (line token : List Char) : Prop :=
  ∃ before after comment,
    line = before ++ token ++ after ++ comment ∧
    (∀ c ∈ before, Text.isBlank c = true) ∧
    (∀ c ∈ token, isTokenChar c = true) ∧
    (∀ c ∈ after, Text.isBlank c = true) ∧
    IsComment comment

/-! ### Reading -/

/-- Nothing is left, or a comment that ends where the line ends. -/
def isComment : List Char → Bool
  | [] => true
  | c :: body => c == '#' && body.all isCommentChar

/-- The token of a well-formed line, empty if it has none (`line_p`). -/
def token? (line : List Char) : Option (List Char) :=
  let rest := line.dropWhile Text.isBlank
  if isComment ((rest.dropWhile isTokenChar).dropWhile Text.isBlank) then
    some (rest.takeWhile isTokenChar)
  else
    none

theorem isComment_iff {s : List Char} : isComment s = true ↔ IsComment s := by
  cases s with
  | nil => simp [isComment, IsComment]
  | cons c body =>
    simp only [isComment, IsComment, Bool.and_eq_true, beq_iff_eq, List.all_eq_true]
    constructor
    · rintro ⟨rfl, hbody⟩
      exact .inr ⟨body, rfl, hbody⟩
    · rintro (h | ⟨body', h, hbody⟩)
      · cases h
      · cases h
        exact ⟨rfl, hbody⟩

/-! ### Readers for a line -/

namespace LineReader

open Text (Reader)

def blanks : Reader (List Char) := Reader.run Text.isBlank

/-- A token of at least one character (`word_token_p`). -/
def token : Reader (List Char) := Reader.run1 isTokenChar

/-- What follows the mark of a comment (`comment_p`). -/
def comment : Reader (List Char) := Reader.second (Reader.char '#') (Reader.run isCommentChar)

/-- The token of a line that is read to its end (`line_p`). -/
def line : Reader (Option (List Char)) :=
  Reader.whole (Reader.first (Reader.second blanks (Reader.optional token))
    (Reader.both blanks (Reader.optional comment)))

end LineReader

end Listing

end Wordcode
