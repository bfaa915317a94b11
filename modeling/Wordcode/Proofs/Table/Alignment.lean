import Wordcode.Proofs.Table.Cells

/-!
# Alignment of rendered tables

A column has one width in all lines of a table, so that the lines are of one length and their cells
meet at the same places, the joints. In lines of text the divider stands at the joints and nowhere
else, and in a rule its crossing does (`getElem?_line_eq_joint_iff`); the texts of a line stand next
to the joints, before the first one and behind the others.
-/

namespace Wordcode

/-! ### Widths -/

/-- The length of the longest of the texts; 0 if there is none. -/
def Text.longest (texts : List (List Char)) : Nat := (texts.map List.length).foldr max 0

theorem Column.width_eq_max {α : Type} (c : Column α) (rows : List α) :
    c.width rows =
      max c.title.toList.length (Text.longest (rows.map fun row => (c.cell row).toList)) := by
  have hgrow (start : Nat) :
      rows.foldl (fun w row => max w (c.cell row).length) start =
        max start (Text.longest (rows.map fun row => (c.cell row).toList)) := by
    induction rows generalizing start with
    | nil => exact (Nat.max_zero start).symm
    | cons first rest ih =>
      rw [List.foldl_cons, ih, Nat.max_assoc, ← String.length_toList]
      rfl
  rw [width, hgrow, String.length_toList]

namespace Style

/-! ### Joints -/

/-- Where cells of the given lengths meet, if they stand side by side from `start` on with one
character between two of them. -/
def jointsFrom (start : Nat) : List Nat → List Nat
  | [] => []
  | [_] => []
  | length :: next :: lengths =>
    (start + length) :: jointsFrom (start + length + 1) (next :: lengths)

/-- Where such cells end. -/
def endFrom (start : Nat) : List Nat → Nat
  | [] => start
  | [length] => start + length
  | length :: next :: lengths => endFrom (start + length + 1) (next :: lengths)

theorem le_of_mem_jointsFrom {start k : Nat} {lengths : List Nat}
    (h : k ∈ jointsFrom start lengths) : start ≤ k := by
  induction lengths generalizing start with
  | nil => cases h
  | cons length lengths ih =>
    cases lengths with
    | nil => cases h
    | cons next lengths =>
      rcases List.mem_cons.1 h with h | h
      · omega
      · have hle := ih h
        omega

theorem endFrom_eq_length_intercalate (joint : Char) (cells : List (List Char)) (start : Nat) :
    endFrom start (cells.map List.length) = start + ([joint].intercalate cells).length := by
  induction cells generalizing start with
  | nil => rfl
  | cons first cells ih =>
    cases cells with
    | nil =>
      rw [List.intercalate_singleton]
      rfl
    | cons second cells =>
      have hend := ih (start + first.length + 1)
      rw [List.intercalate_cons_cons, List.length_append, List.length_append,
        List.length_singleton]
      simp only [List.map_cons, endFrom] at hend ⊢
      omega

theorem getElem?_intercalate_eq_joint_iff {joint : Char} {cells : List (List Char)}
    (hcells : ∀ cell ∈ cells, joint ∉ cell) (start k : Nat) :
    ([joint].intercalate cells)[k]? = some joint ↔
      start + k ∈ jointsFrom start (cells.map List.length) := by
  induction cells generalizing start k with
  | nil => simp [jointsFrom]
  | cons first cells ih =>
    obtain ⟨hfirst, hrest⟩ := List.forall_mem_cons.1 hcells
    cases cells with
    | nil =>
      rw [List.intercalate_singleton]
      refine ⟨fun h => absurd (List.mem_of_getElem? h) hfirst, fun h => ?_⟩
      cases h
    | cons second cells =>
      have hjoints : jointsFrom start ((first :: second :: cells).map List.length) =
          (start + first.length) ::
            jointsFrom (start + first.length + 1) ((second :: cells).map List.length) := rfl
      rw [List.intercalate_cons_cons, List.append_assoc, hjoints, List.mem_cons]
      rcases Nat.lt_trichotomy k first.length with hk | hk | hk
      · rw [List.getElem?_append_left hk]
        refine ⟨fun h => absurd (List.mem_of_getElem? h) hfirst, fun h => ?_⟩
        rcases h with h | h
        · omega
        · have hle := le_of_mem_jointsFrom h
          omega
      · rw [hk, List.getElem?_append_right (Nat.le_refl _), Nat.sub_self]
        exact ⟨fun _ => .inl rfl, fun _ => rfl⟩
      · obtain ⟨m, rfl⟩ := Nat.exists_eq_add_of_lt hk
        have hplace : first.length + m + 1 - first.length = m + 1 := by omega
        have hsum : start + (first.length + m + 1) = start + first.length + 1 + m := by omega
        have hne : ¬ start + first.length + 1 + m = start + first.length := by omega
        rw [List.getElem?_append_right (Nat.le_of_lt hk), hplace, List.singleton_append,
          List.getElem?_cons_succ, hsum, or_iff_right hne]
        exact ih hrest _ m

theorem prefix_intercalate_cons (joint : Char) (first : List Char) (cells : List (List Char)) :
    first <+: [joint].intercalate (first :: cells) := by
  cases cells with
  | nil => exact ⟨[], by rw [List.append_nil, List.intercalate_singleton]⟩
  | cons second cells =>
    rw [List.intercalate_cons_cons, List.append_assoc]
    exact List.prefix_append first _

theorem prefix_drop_intercalate {joint : Char} (cells : List (List Char))
    (before after : List Char) :
    ∀ p ∈ (jointsFrom before.length (cells.map List.length)).zip cells.tail,
      p.2 <+: (before ++ [joint].intercalate cells ++ after).drop (p.1 + 1) := by
  induction cells generalizing before with
  | nil => exact List.forall_mem_nil _
  | cons first cells ih =>
    cases cells with
    | nil => exact List.forall_mem_nil _
    | cons second cells =>
      have hbefore : (before ++ first ++ [joint]).length = before.length + first.length + 1 := by
        simp only [List.length_append, List.length_singleton]
      have hline : before ++ [joint].intercalate (first :: second :: cells) ++ after =
          before ++ first ++ [joint] ++ [joint].intercalate (second :: cells) ++ after := by
        rw [List.intercalate_cons_cons]
        simp only [List.append_assoc]
      have hrest := ih (before ++ first ++ [joint])
      rw [hbefore] at hrest
      rw [hline]
      refine List.forall_mem_cons.2 ⟨?_, hrest⟩
      rw [List.append_assoc (before ++ first ++ [joint]), List.drop_left' hbefore]
      exact (prefix_intercalate_cons joint second cells).trans (List.prefix_append _ after)

/-! ### Lines -/

variable {s : Style} {joint : Char} {cells : List (List Char)}

theorem length_line (s : Style) (joint : Char) (cells : List (List Char)) :
    (s.line joint cells).length = endFrom 1 (cells.map List.length) + 1 := by
  rw [line, List.length_append, List.length_cons, List.length_singleton,
    endFrom_eq_length_intercalate joint]
  omega

theorem getElem?_line_eq_joint_iff (hborder : s.border ≠ joint)
    (hcells : ∀ cell ∈ cells, joint ∉ cell) (k : Nat) :
    (s.line joint cells)[k]? = some joint ↔ k ∈ jointsFrom 1 (cells.map List.length) := by
  rw [line, List.cons_append]
  cases k with
  | zero =>
    refine ⟨fun h => absurd (Option.some.inj h) hborder, fun h => ?_⟩
    have hle := le_of_mem_jointsFrom h
    omega
  | succ k =>
    rw [List.getElem?_cons_succ, Nat.add_comm k 1,
      ← getElem?_intercalate_eq_joint_iff hcells 1 k]
    rcases Nat.lt_or_ge k ([joint].intercalate cells).length with hk | hk
    · rw [List.getElem?_append_left hk]
    · rw [List.getElem?_append_right hk, List.getElem?_eq_none hk]
      refine ⟨fun h => ?_, fun h => by cases h⟩
      have hmem := List.mem_singleton.1 (List.mem_of_getElem? h)
      exact absurd hmem.symm hborder

theorem exists_getElem?_line {k : Nat} (hpos : 0 < k) (hlt : k + 1 < (s.line joint cells).length) :
    ∃ c ∈ [joint].intercalate cells, (s.line joint cells)[k]? = some c := by
  obtain ⟨m, rfl⟩ := Nat.exists_eq_succ_of_ne_zero (Nat.ne_of_gt hpos)
  have hm : m < ([joint].intercalate cells).length := by
    rw [line, List.length_append, List.length_cons, List.length_singleton] at hlt
    omega
  refine ⟨_, List.getElem_mem hm, ?_⟩
  rw [line, List.cons_append, Nat.succ_eq_add_one, List.getElem?_cons_succ,
    List.getElem?_append_left hm, List.getElem?_eq_getElem hm]

theorem prefix_drop_line (s : Style) (joint : Char) (cells : List (List Char)) :
    ∀ p ∈ (jointsFrom 1 (cells.map List.length)).zip cells.tail,
      p.2 <+: (s.line joint cells).drop (p.1 + 1) :=
  prefix_drop_intercalate cells [s.border] [s.border]

theorem suffix_take_line (s : Style) (joint : Char) (cells : List (List Char)) :
    ∀ j ∈ (jointsFrom 1 (cells.map List.length)).head?, ∀ first ∈ cells.head?,
      first <:+ (s.line joint cells).take j := by
  intro j hj first hfirst
  match cells with
  | [] => cases hfirst
  | [_] => cases hj
  | first' :: second :: cells =>
    obtain rfl : first' = first := Option.some.inj hfirst
    have hplace : (s.border :: first').length = j := by
      rw [← Option.some.inj hj, List.length_cons, Nat.add_comm]
    have hline : s.line joint (first' :: second :: cells) =
        s.border :: first' ++ ([joint] ++ [joint].intercalate (second :: cells) ++ [s.border]) := by
      rw [line, List.intercalate_cons_cons]
      simp only [List.cons_append, List.append_assoc]
    rw [hline, List.take_left' hplace]
    exact List.suffix_cons s.border first'

/-! ### Lines of texts -/

theorem length_cell (s : Style) (align : Align) {width : Nat} {text : String}
    (h : text.toList.length ≤ width) :
    (s.cell align width text).length = width + 2 * s.padding := by
  rw [cell, List.length_append, List.length_append, List.length_replicate, align.length_pad h]
  omega

theorem suffix_cell_right (s : Style) (width : Nat) (text : String) :
    text.toList ++ List.replicate s.padding ' ' <:+ s.cell .right width text := by
  refine ⟨List.replicate s.padding ' ' ++ List.replicate (width - text.toList.length) ' ', ?_⟩
  simp only [cell, Align.pad, List.append_assoc]

theorem prefix_cell_left (s : Style) (width : Nat) (text : String) :
    List.replicate s.padding ' ' ++ text.toList <+: s.cell .left width text := by
  refine ⟨List.replicate (width - text.toList.length) ' ' ++ List.replicate s.padding ' ', ?_⟩
  simp only [cell, Align.pad, List.append_assoc]

/-- The line shows these texts, divided at the joints and nowhere else. The first text ends right
before the first joint and each of the others starts right behind its joint, but for the padding. -/
structure ShowsTexts (s : Style) (joints : List Nat) (texts : List (List Char))
    (l : List Char) : Prop where
  divider_iff : ∀ k, l[k]? = some s.divider ↔ k ∈ joints
  before_first : ∀ j ∈ joints.head?, ∀ text ∈ texts.head?,
    text ++ List.replicate s.padding ' ' <:+ l.take j
  behind_joint : ∀ p ∈ joints.zip texts.tail,
    List.replicate s.padding ' ' ++ p.2 <+: l.drop (p.1 + 1)

/-! ### Rules -/

/-- The characters with which the rule is drawn can be told from each other, and from the border
and the divider of the other lines. -/
def Distinct (s : Style) (rule : Rule) : Prop :=
  [s.border, s.divider, rule.fill, rule.crossing].Nodup

instance (s : Style) (rule : Rule) : Decidable (s.Distinct rule) :=
  inferInstanceAs (Decidable (List.Nodup _))

/-- The line is a rule: it crosses the joints and nothing else, has the border at its two ends, and
is filled at all other places. -/
structure DrawsRule (s : Style) (rule : Rule) (joints : List Nat) (l : List Char) : Prop where
  crossing_iff : ∀ k, l[k]? = some rule.crossing ↔ k ∈ joints
  head : l.head? = some s.border
  last : l.getLast? = some s.border
  fill : ∀ k, 0 < k → k + 1 < l.length → k ∉ joints → l[k]? = some rule.fill
  not_divider : s.divider ∉ l

theorem drawsRule {rule : Rule} (h : s.Distinct rule) (widths : List Nat) :
    s.DrawsRule rule (jointsFrom 1 (widths.map (· + 2 * s.padding)))
      (s.ruleLine rule widths) := by
  simp only [Distinct, List.nodup_cons, List.mem_cons, List.not_mem_nil, or_false, not_or] at h
  obtain ⟨⟨hdivider, hfill, hcrossing⟩, ⟨hdividerFill, hdividerCrossing⟩, hdrawn, _⟩ := h
  let cells := widths.map fun w => List.replicate (w + 2 * s.padding) rule.fill
  have hlengths : cells.map List.length = widths.map (· + 2 * s.padding) := by
    rw [List.map_map]
    exact List.map_congr_left fun w _ => List.length_replicate
  have hcells : ∀ cell ∈ cells, ∀ c ∈ cell, c = rule.fill := by
    rw [List.forall_mem_map]
    exact fun w _ c hc => (List.mem_replicate.1 hc).2
  have hcrossed := getElem?_line_eq_joint_iff hcrossing fun cell hcell hmem =>
    hdrawn (hcells cell hcell _ hmem).symm
  rw [hlengths] at hcrossed
  exact {
    crossing_iff := hcrossed
    head := rfl
    last := List.getLast?_concat
    fill := fun k hpos hlt hk => by
      obtain ⟨c, hc, hget⟩ := exists_getElem?_line hpos hlt
      have hdrawn : ∀ c ∈ [rule.crossing].intercalate cells, c = rule.fill ∨ c = rule.crossing :=
        forall_mem_intercalate (.inr rfl) fun cell hcell c hc => .inl (hcells cell hcell c hc)
      rcases hdrawn c hc with h | h
      · rw [← h]
        exact hget
      · exact absurd ((hcrossed k).1 (h ▸ hget)) hk
    not_divider := fun hmem =>
      forall_mem_line (p := (· ≠ s.divider)) hdivider (Ne.symm hdividerCrossing)
        (fun cell hcell c hc => by
          rw [hcells cell hcell c hc]
          exact Ne.symm hdividerFill) _ hmem rfl }

end Style

/-! ### Tables -/

/-- The lines are those of an aligned table: all of one length, first the titles and a rule, then one
line for each of the rows and another rule, with the same joints in them all. -/
structure Style.Aligned (s : Style) (length : Nat) (joints : List Nat) (titles : List (List Char))
    (rows : List (List (List Char))) (lines : List (List Char)) : Prop where
  count : lines.length = rows.length + 3
  length_eq : ∀ l ∈ lines, l.length = length
  titles : ∃ l, lines[0]? = some l ∧ s.ShowsTexts joints titles l
  titleRule : ∃ l, lines[1]? = some l ∧ s.DrawsRule s.titleRule joints l
  row : ∀ k texts, rows[k]? = some texts →
    ∃ l, lines[k + 2]? = some l ∧ s.ShowsTexts joints texts l
  bottomRule : ∃ l, lines[rows.length + 2]? = some l ∧ s.DrawsRule s.bottomRule joints l

namespace Table

variable {α : Type} {t : Table α}

/-- The lengths of the cells in a line of the table, padding included. -/
def spans (t : Table α) : List Nat := t.widths.map (· + 2 * t.style.padding)

/-- The first column ends at its joint and all others start at theirs. -/
def Flush (t : Table α) : Prop :=
  (∀ c ∈ t.columns.head?, c.align = .right) ∧ ∀ c ∈ t.columns.tail, c.align = .left

theorem length_cells {text : Column α → String}
    (htext : ∀ c ∈ t.columns, (text c).toList.length ≤ c.width t.rows) :
    (t.columns.map fun c => t.style.cell c.align (c.width t.rows) (text c)).map List.length =
      t.spans := by
  rw [spans, widths, List.map_map, List.map_map]
  exact List.map_congr_left fun c hc => t.style.length_cell c.align (htext c hc)

theorem length_textLine {text : Column α → String}
    (htext : ∀ c ∈ t.columns, (text c).toList.length ≤ c.width t.rows) :
    (t.textLine t.widths text).length = Style.endFrom 1 t.spans + 1 := by
  rw [textLine_widths, Style.length_line, length_cells htext]

theorem length_ruleLine (t : Table α) (rule : Rule) :
    (t.style.ruleLine rule t.widths).length = Style.endFrom 1 t.spans + 1 := by
  rw [Style.ruleLine, Style.length_line, List.map_map, spans]
  exact congrArg (Style.endFrom 1 · + 1) (List.map_congr_left fun w _ => List.length_replicate)

theorem showsTexts (hflush : t.Flush) (hspace : t.style.divider ≠ ' ')
    (hborder : t.style.border ≠ t.style.divider) {text : Column α → String}
    (hdivider : ∀ c ∈ t.columns, t.style.divider ∉ (text c).toList)
    (hlength : ∀ c ∈ t.columns, (text c).toList.length ≤ c.width t.rows) :
    t.style.ShowsTexts (Style.jointsFrom 1 t.spans) (t.columns.map fun c => (text c).toList)
      (t.textLine t.widths text) := by
  let cell : Column α → List Char := fun c => t.style.cell c.align (c.width t.rows) (text c)
  have hcells : ∀ l ∈ t.columns.map cell, t.style.divider ∉ l := by
    rw [List.forall_mem_map]
    exact fun c hc => Style.divider_not_mem_cell hspace (hdivider c hc)
  rw [textLine_widths, ← length_cells hlength]
  exact {
    divider_iff := Style.getElem?_line_eq_joint_iff hborder hcells
    before_first := fun j hj txt htxt => by
      rw [Option.mem_def, List.head?_map, Option.map_eq_some_iff] at htxt
      obtain ⟨c, hc, rfl⟩ := htxt
      have hcell : (t.columns.map cell).head? = some (cell c) := by
        rw [List.head?_map, hc]
        rfl
      have hright : (text c).toList ++ List.replicate t.style.padding ' ' <:+ cell c := by
        simp only [cell, hflush.1 c hc]
        exact t.style.suffix_cell_right _ _
      exact hright.trans (t.style.suffix_take_line _ _ j hj _ hcell)
    behind_joint := by
      have hcells := t.style.prefix_drop_line t.style.divider (t.columns.map cell)
      rw [← List.map_tail, List.zip_map_right, List.forall_mem_map] at hcells ⊢
      intro p hp
      have hleft : List.replicate t.style.padding ' ' ++ (text p.2).toList <+: cell p.2 := by
        simp only [cell, hflush.2 p.2 (List.of_mem_zip hp).2]
        exact t.style.prefix_cell_left _ _
      exact hleft.trans (hcells p hp) }

/-- A readable table of flush columns is aligned, whatever its rows are. -/
theorem aligned (h : t.Readable) (hflush : t.Flush) (htitle : t.style.Distinct t.style.titleRule)
    (hbottom : t.style.Distinct t.style.bottomRule) :
    t.style.Aligned (Style.endFrom 1 t.spans + 1) (Style.jointsFrom 1 t.spans)
      (t.columns.map fun c => c.title.toList)
      (t.rows.map fun row => t.columns.map fun c => (c.cell row).toList) t.lines := by
  have hborder : t.style.border ≠ t.style.divider := by
    intro heq
    exact (List.nodup_cons.1 htitle).1 (heq ▸ List.mem_cons_self ..)
  have hspace := h.style.divider_ne
  have htitles : ∀ c ∈ t.columns, c.title.toList.length ≤ c.width t.rows := by
    intro c _
    rw [String.length_toList]
    exact (c.length_le_width t.rows).1
  have hrows : ∀ row ∈ t.rows, ∀ c ∈ t.columns, (c.cell row).toList.length ≤ c.width t.rows := by
    intro row hrow c _
    rw [String.length_toList]
    exact (c.length_le_width t.rows).2 row hrow
  have hlines : t.lines = t.textLine t.widths Column.title ::
      t.style.ruleLine t.style.titleRule t.widths ::
        (t.rows.map fun row => t.textLine t.widths fun c => c.cell row) ++
          [t.style.ruleLine t.style.bottomRule t.widths] := rfl
  exact {
    count := by
      rw [hlines]
      simp only [List.length_append, List.length_cons, List.length_map, List.length_nil]
    length_eq := by
      rw [hlines, List.cons_append, List.cons_append, List.forall_mem_cons, List.forall_mem_cons,
        List.forall_mem_append, List.forall_mem_map, List.forall_mem_singleton]
      exact ⟨length_textLine htitles, t.length_ruleLine _,
        fun row hrow => length_textLine (hrows row hrow), t.length_ruleLine _⟩
    titles := ⟨_, rfl, showsTexts hflush hspace hborder
      (fun c hc => (h.titles c hc).not_divider) htitles⟩
    titleRule := ⟨_, rfl, Style.drawsRule htitle t.widths⟩
    row := by
      intro k texts hk
      rw [List.getElem?_map, Option.map_eq_some_iff] at hk
      obtain ⟨row, hget, rfl⟩ := hk
      have hrow := List.mem_of_getElem? hget
      refine ⟨t.textLine t.widths fun c => c.cell row, ?_, showsTexts hflush hspace hborder
        (fun c hc => (h.cells c hc row hrow).not_divider) (hrows row hrow)⟩
      have hlt : k < t.rows.length := (List.getElem?_eq_some_iff.1 hget).1
      rw [hlines, List.cons_append, List.cons_append, List.getElem?_cons_succ,
        List.getElem?_cons_succ, List.getElem?_append_left (by rw [List.length_map]; exact hlt),
        List.getElem?_map, hget]
      rfl
    bottomRule := by
      refine ⟨_, ?_, Style.drawsRule hbottom t.widths⟩
      rw [hlines, List.cons_append, List.cons_append, List.getElem?_cons_succ,
        List.getElem?_cons_succ, List.length_map,
        ← List.length_map (f := fun row => t.textLine t.widths fun c => c.cell row)]
      exact List.getElem?_concat_length }

end Table

end Wordcode
