/-!
# Text tables

A table shows each row as one line of text, with a cell for each column. A column is as wide as
the widest of its title and its cells. Every line, the rules under the title and under the last
row included, has a border at both ends, and a character of its own where columns meet.
-/

namespace Wordcode

/-- On which side of its cell a text stands. -/
inductive Align where
  | left
  | right
deriving DecidableEq, Repr

/-- The text in a cell of the given width. -/
def Align.pad (width : Nat) (text : List Char) : Align → List Char
  | .left => text ++ List.replicate (width - text.length) ' '
  | .right => List.replicate (width - text.length) ' ' ++ text

theorem Align.length_pad (a : Align) {width : Nat} {text : List Char} (h : text.length ≤ width) :
    (a.pad width text).length = width := by
  cases a <;> simp only [pad, List.length_append, List.length_replicate] <;> omega

/-- A column, with the text that it shows of a row. -/
structure Column (α : Type) where
  title : String
  align : Align
  cell : α → String

/-- How a horizontal rule is drawn. -/
structure Rule where
  fill : Char
  /-- Stands where the rule crosses from one column into the next. -/
  crossing : Char
deriving DecidableEq, Repr

/-- How the lines of a table are drawn. -/
structure Style where
  /-- Stands at both ends of every line. -/
  border : Char
  /-- Stands between the cells of a line. -/
  divider : Char
  /-- The number of blanks on either side of a cell. -/
  padding : Nat
  titleRule : Rule
  bottomRule : Rule
deriving DecidableEq, Repr

structure Table (α : Type) where
  style : Style
  columns : List (Column α)
  rows : List α

/-- The width of the widest text in the column. -/
def Column.width {α : Type} (c : Column α) (rows : List α) : Nat :=
  rows.foldl (fun w row => max w (c.cell row).length) c.title.length

theorem Column.length_le_width {α : Type} (c : Column α) (rows : List α) :
    c.title.length ≤ c.width rows ∧ ∀ row ∈ rows, (c.cell row).length ≤ c.width rows := by
  have hgrow (start : Nat) :
      let widest := rows.foldl (fun w row => max w (c.cell row).length) start
      start ≤ widest ∧ ∀ row ∈ rows, (c.cell row).length ≤ widest := by
    induction rows generalizing start with
    | nil => simp
    | cons first rest ih =>
      obtain ⟨hle, hrest⟩ := ih (max start (c.cell first).length)
      simp only [List.foldl_cons, List.forall_mem_cons]
      exact ⟨by omega, by omega, hrest⟩
  exact hgrow c.title.length

namespace Style

/-- A line of the table: its cells between borders, with `joint` where two of them meet. -/
def line (s : Style) (joint : Char) (cells : List (List Char)) : List Char :=
  s.border :: [joint].intercalate cells ++ [s.border]

/-- A cell with a text and its padding. -/
def cell (s : Style) (align : Align) (width : Nat) (text : String) : List Char :=
  List.replicate s.padding ' ' ++ align.pad width text.toList ++ List.replicate s.padding ' '

/-- A rule across columns of the given widths. -/
def ruleLine (s : Style) (rule : Rule) (widths : List Nat) : List Char :=
  s.line rule.crossing (widths.map fun w => List.replicate (w + 2 * s.padding) rule.fill)

end Style

namespace Table

variable {α : Type}

def widths (t : Table α) : List Nat := t.columns.map fun c => c.width t.rows

/-- The line that shows, in columns of the given widths, one text of each column. -/
def textLine (t : Table α) (widths : List Nat) (text : Column α → String) : List Char :=
  t.style.line t.style.divider
    (List.zipWith (fun c w => t.style.cell c.align w (text c)) t.columns widths)

/-- The lines of the table: the titles, a rule, a line for each row, and a rule. -/
def lines (t : Table α) : List (List Char) :=
  let widths := t.widths
  t.textLine widths Column.title :: t.style.ruleLine t.style.titleRule widths ::
    t.rows.map (fun row => t.textLine widths fun c => c.cell row) ++
    [t.style.ruleLine t.style.bottomRule widths]

/-- The table as text; every line ends with a line feed. -/
def render (t : Table α) : String := String.ofList (t.lines.flatMap fun l => l ++ ['\n'])

end Table

end Wordcode
