import Wordcode.Proofs.Listing.Token
import Wordcode.Proofs.Text.Pieces
import Wordcode.Table.Basic

/-!
# Reading a rendered table

The texts of the cells are read back from a table that was written out: a line is cut at its
dividers, and the spaces around a text are taken off. The cells of a rendered table give their
texts back in this way (`rowTexts_render`), although the widths of its columns depend on all rows
together: padding is only spaces on either side of a text, and a text without spaces at its ends is
what is left when they are taken off.
-/

namespace Wordcode

/-! ### Reading -/

/-- The text without the spaces at its two ends. -/
def Text.stripSpaces (s : List Char) : List Char :=
  ((s.dropWhile (· == ' ')).reverse.dropWhile (· == ' ')).reverse

/-- The texts in the cells of a line, without their padding. -/
def Style.cellTexts (s : Style) (line : List Char) : List (List Char) :=
  (line.tail.dropLast.splitOn s.divider).map Text.stripSpaces

/-- The texts in the cells of each row of a rendered table: of its lines, all but the titles, the
rule under them and the last rule are rows. -/
def Style.rowTexts (s : Style) (rendered : String) : List (List (List Char)) :=
  ((Text.lines rendered.toList).drop 2).dropLast.map s.cellTexts

/-! ### Padding -/

namespace Text

/-- A text that can be told from the lines and the padding around it. -/
structure IsCell (divider : Char) (text : List Char) : Prop where
  not_divider : divider ∉ text
  unbroken : ∀ c ∈ text, c ≠ '\r' ∧ c ≠ '\n'
  head : text.head? ≠ some ' '
  last : text.getLast? ≠ some ' '

theorem ends_space {s : List Char} (h : s.head? ≠ some ' ') : Listing.Ends (· == ' ') s := by
  intro c hc
  refine beq_eq_false_iff_ne.2 fun heq => h ?_
  rw [← heq]
  exact hc

theorem dropWhile_replicate_append (n : Nat) {s : List Char} (h : s.head? ≠ some ' ') :
    (List.replicate n ' ' ++ s).dropWhile (· == ' ') = s := by
  refine Listing.dropWhile_append_of_ends ?_ (ends_space h)
  intro c hc
  rw [(List.mem_replicate.1 hc).2]
  rfl

theorem stripSpaces_replicate_append {m n : Nat} {text : List Char} (hhead : text.head? ≠ some ' ')
    (hlast : text.getLast? ≠ some ' ') :
    stripSpaces (List.replicate m ' ' ++ text ++ List.replicate n ' ') = text := by
  rw [stripSpaces]
  cases text with
  | nil =>
    have hspaces := dropWhile_replicate_append (m + n) hhead
    rw [List.append_nil, List.replicate_append_replicate, ← List.append_nil (List.replicate _ _),
      hspaces]
    rfl
  | cons c text =>
    have hfirst : (c :: text ++ List.replicate n ' ').head? ≠ some ' ' := hhead
    have hreverse : (c :: text).reverse.head? ≠ some ' ' := by
      rw [List.head?_reverse]
      exact hlast
    rw [List.append_assoc, dropWhile_replicate_append m hfirst, List.reverse_append,
      List.reverse_replicate, dropWhile_replicate_append n hreverse, List.reverse_reverse]

end Text

namespace Style

/-! ### Lines -/

/-- The lines of a table in this style can be told from each other, and so can the cells. -/
structure Readable (s : Style) : Prop where
  divider_ne : s.divider ≠ ' '
  unbroken : ∀ c ∈ [s.border, s.divider, s.titleRule.fill, s.titleRule.crossing,
    s.bottomRule.fill, s.bottomRule.crossing], c ≠ '\r' ∧ c ≠ '\n'

variable {s : Style} {align : Align} {width : Nat} {text : String}

theorem exists_cell_eq (s : Style) (align : Align) (width : Nat) (text : String) :
    ∃ m n, s.cell align width text =
      List.replicate m ' ' ++ text.toList ++ List.replicate n ' ' := by
  cases align with
  | left =>
    refine ⟨s.padding, (width - text.toList.length) + s.padding, ?_⟩
    simp only [cell, Align.pad, ← List.replicate_append_replicate, List.append_assoc]
  | right =>
    refine ⟨s.padding + (width - text.toList.length), s.padding, ?_⟩
    simp only [cell, Align.pad, ← List.replicate_append_replicate, List.append_assoc]

theorem forall_mem_cell {p : Char → Prop} (hspace : p ' ') (htext : ∀ c ∈ text.toList, p c) :
    ∀ c ∈ s.cell align width text, p c := by
  obtain ⟨m, n, hcell⟩ := exists_cell_eq s align width text
  have hpadding : ∀ k, ∀ c ∈ List.replicate k ' ', p c := by
    intro k c hc
    rw [(List.mem_replicate.1 hc).2]
    exact hspace
  rw [hcell, List.forall_mem_append, List.forall_mem_append]
  exact ⟨⟨hpadding m, htext⟩, hpadding n⟩

theorem divider_not_mem_cell (hspace : s.divider ≠ ' ') (htext : s.divider ∉ text.toList) :
    s.divider ∉ s.cell align width text := by
  intro hmem
  exact forall_mem_cell (p := (· ≠ s.divider)) hspace.symm
    (fun c hc heq => htext (heq ▸ hc)) _ hmem rfl

theorem stripSpaces_cell (h : Text.IsCell s.divider text.toList) :
    Text.stripSpaces (s.cell align width text) = text.toList := by
  obtain ⟨m, n, hcell⟩ := exists_cell_eq s align width text
  rw [hcell, Text.stripSpaces_replicate_append h.head h.last]

theorem forall_mem_intercalate {p : Char → Prop} {joint : Char} {cells : List (List Char)}
    (hjoint : p joint) (hcells : ∀ cell ∈ cells, ∀ c ∈ cell, p c) :
    ∀ c ∈ [joint].intercalate cells, p c := by
  induction cells with
  | nil => exact List.forall_mem_nil _
  | cons first cells ih =>
    obtain ⟨hfirst, hrest⟩ := List.forall_mem_cons.1 hcells
    cases cells with
    | nil =>
      rw [List.intercalate_singleton]
      exact hfirst
    | cons second cells =>
      rw [List.intercalate_cons_cons, List.forall_mem_append, List.forall_mem_append,
        List.forall_mem_singleton]
      exact ⟨⟨hfirst, hjoint⟩, ih hrest⟩

theorem forall_mem_line {p : Char → Prop} {joint : Char} {cells : List (List Char)}
    (hborder : p s.border) (hjoint : p joint) (hcells : ∀ cell ∈ cells, ∀ c ∈ cell, p c) :
    ∀ c ∈ s.line joint cells, p c := by
  rw [line, List.cons_append, List.forall_mem_cons, List.forall_mem_append,
    List.forall_mem_singleton]
  exact ⟨hborder, forall_mem_intercalate hjoint hcells, hborder⟩

theorem cellTexts_line {cells : List (List Char)} (hne : cells ≠ [])
    (hcells : ∀ cell ∈ cells, s.divider ∉ cell) :
    s.cellTexts (s.line s.divider cells) = cells.map Text.stripSpaces := by
  rw [cellTexts, line, List.cons_append, List.tail_cons, List.dropLast_concat,
    List.splitOn_intercalate s.divider hcells hne]

end Style

/-! ### Tables -/

namespace Table

variable {α : Type} {t : Table α}

/-- All that stands in the table can be told from how the table is drawn. -/
structure Readable (t : Table α) : Prop where
  style : t.style.Readable
  columns : t.columns ≠ []
  titles : ∀ c ∈ t.columns, Text.IsCell t.style.divider c.title.toList
  cells : ∀ c ∈ t.columns, ∀ row ∈ t.rows, Text.IsCell t.style.divider (c.cell row).toList

theorem textLine_widths (t : Table α) (text : Column α → String) :
    t.textLine t.widths text = t.style.line t.style.divider
      (t.columns.map fun c => t.style.cell c.align (c.width t.rows) (text c)) := by
  rw [textLine, widths, List.zipWith_map_right, List.zipWith_self]

theorem unbroken_textLine (hstyle : t.style.Readable) {text : Column α → String}
    (htext : ∀ c ∈ t.columns, Text.IsCell t.style.divider (text c).toList) :
    ∀ c ∈ t.textLine t.widths text, c ≠ '\r' ∧ c ≠ '\n' := by
  rw [textLine_widths]
  refine Style.forall_mem_line (hstyle.unbroken _ (by simp)) (hstyle.unbroken _ (by simp)) ?_
  rw [List.forall_mem_map]
  intro c hc
  exact Style.forall_mem_cell (by decide) (htext c hc).unbroken

theorem unbroken_ruleLine {s : Style} {rule : Rule} {ws : List Nat}
    (h : ∀ c ∈ [s.border, rule.crossing, rule.fill], c ≠ '\r' ∧ c ≠ '\n') :
    ∀ c ∈ s.ruleLine rule ws, c ≠ '\r' ∧ c ≠ '\n' := by
  refine Style.forall_mem_line (h _ (by simp)) (h _ (by simp)) ?_
  rw [List.forall_mem_map]
  intro w _ c hc
  rw [(List.mem_replicate.1 hc).2]
  exact h _ (by simp)

theorem Readable.unbroken (h : t.Readable) :
    ∀ l ∈ t.lines, ∀ c ∈ l, c ≠ '\r' ∧ c ≠ '\n' := by
  have hstyle := h.style.unbroken
  have hrow : ∀ row ∈ t.rows,
      ∀ c ∈ t.textLine t.widths (fun c => c.cell row), c ≠ '\r' ∧ c ≠ '\n' :=
    fun row hrow => unbroken_textLine h.style fun c hc => h.cells c hc row hrow
  simp only [List.forall_mem_cons] at hstyle
  obtain ⟨hborder, hdivider, hfill, hcrossing, hfill', hcrossing', _⟩ := hstyle
  rw [lines, List.cons_append, List.cons_append, List.forall_mem_cons, List.forall_mem_cons,
    List.forall_mem_append, List.forall_mem_map, List.forall_mem_singleton]
  refine ⟨unbroken_textLine h.style h.titles, unbroken_ruleLine ?_, hrow, unbroken_ruleLine ?_⟩
  · simp [hborder, hcrossing, hfill]
  · simp [hborder, hcrossing', hfill']

theorem lines_render (h : t.Readable) : Text.lines t.render.toList = t.lines := by
  let ended := t.lines.map fun l => (l, Text.LineEnd.lf)
  have hfree : ∀ p ∈ ended, '\r' ∉ p.1 ∧ '\n' ∉ p.1 := by
    rw [List.forall_mem_map]
    intro l hl
    exact ⟨fun hc => (h.unbroken l hl _ hc).1 rfl, fun hc => (h.unbroken l hl _ hc).2 rfl⟩
  have htext : t.render.toList = Text.ofLines ended [] := by
    rw [render, String.toList_ofList, Text.ofLines, List.append_nil, List.flatMap_map]
    rfl
  have hlines : ended.map Prod.fst = t.lines := by
    rw [List.map_map]
    exact List.map_id _
  rw [htext, Text.lines_ofLines hfree (List.not_mem_nil), hlines, if_pos rfl, List.append_nil]

theorem cellTexts_row (h : t.Readable) {row : α} (hrow : row ∈ t.rows) :
    t.style.cellTexts (t.textLine t.widths fun c => c.cell row) =
      t.columns.map fun c => (c.cell row).toList := by
  have hne : (t.columns.map fun c => t.style.cell c.align (c.width t.rows) (c.cell row)) ≠ [] :=
    fun hnil => h.columns (List.map_eq_nil_iff.1 hnil)
  have hdivider : ∀ cell ∈ t.columns.map fun c =>
      t.style.cell c.align (c.width t.rows) (c.cell row), t.style.divider ∉ cell := by
    rw [List.forall_mem_map]
    intro c hc
    exact Style.divider_not_mem_cell h.style.divider_ne (h.cells c hc row hrow).not_divider
  rw [textLine_widths, Style.cellTexts_line hne hdivider, List.map_map]
  exact List.map_congr_left fun c hc => Style.stripSpaces_cell (h.cells c hc row hrow)

theorem rowTexts_render (h : t.Readable) :
    t.style.rowTexts t.render = t.rows.map fun row => t.columns.map fun c => (c.cell row).toList := by
  rw [Style.rowTexts, lines_render h, lines, List.cons_append, List.cons_append,
    List.drop_succ_cons, List.drop_succ_cons, List.drop_zero, List.dropLast_concat, List.map_map]
  exact List.map_congr_left fun row hrow => cellTexts_row h hrow

end Table

end Wordcode
