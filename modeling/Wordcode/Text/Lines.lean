/-!
# Lines

A line ends with a line feed, and a carriage return directly before it belongs to the line's end.
A carriage return anywhere else is a character of the line. What follows the last line feed is a
line only if it is not empty. Read the other way round, texts are put together from lines and their
ends, and a text may differ from another one only in how its lines end.
-/

namespace Wordcode.Text

/-! ### Cutting a text -/

/-- The lines of a text, without their ends. -/
def lines : List Char → List (List Char)
  | [] => []
  | '\n' :: s => [] :: lines s
  | '\r' :: '\n' :: s => [] :: lines s
  | c :: s =>
    match lines s with
    | [] => [[c]]
    | l :: ls => (c :: l) :: ls

@[simp] theorem lines_nil : lines [] = [] := rfl

@[simp] theorem lines_lf (s : List Char) : lines ('\n' :: s) = [] :: lines s := by
  simp [lines]

@[simp] theorem lines_cr_lf (s : List Char) : lines ('\r' :: '\n' :: s) = [] :: lines s := by
  simp [lines]

/-- A character that starts no line's end is put before the first of the lines that follow. -/
theorem lines_cons {c : Char} {s : List Char} (hlf : c ≠ '\n')
    (hcr : c = '\r' → s.head? ≠ some '\n') :
    lines (c :: s) =
      match lines s with
      | [] => [[c]]
      | l :: ls => (c :: l) :: ls := by
  rw [lines]
  · rintro rfl
    exact absurd rfl hlf
  · rintro t rfl rfl
    exact hcr rfl rfl

/-! ### Ends of lines -/

/-- The two ways to end a line. -/
inductive LineEnd where
  | lf
  | crLf
deriving DecidableEq, Repr

def LineEnd.chars : LineEnd → List Char
  | .lf => ['\n']
  | .crLf => ['\r', '\n']

/-- The text of some ended lines, with `last` after the last end. -/
def ofLines (ended : List (List Char × LineEnd)) (last : List Char) : List Char :=
  ended.flatMap (fun p => p.1 ++ p.2.chars) ++ last

/-- The second text is the first with a carriage return put before some of its line feeds. -/
inductive ReturnsAdded : List Char → List Char → Prop
  | nil : ReturnsAdded [] []
  | keep (c : Char) {s t : List Char} : ReturnsAdded s t → ReturnsAdded (c :: s) (c :: t)
  | add {s t : List Char} : ReturnsAdded s t → ReturnsAdded ('\n' :: s) ('\r' :: '\n' :: t)

end Wordcode.Text
