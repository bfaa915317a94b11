import Wordcode.Proofs.Report.Parts
import Wordcode.Proofs.Table.Alignment

/-!
# Alignment of reports

Both reports are rendered as aligned tables: lines of one length, in which all cells meet at the
same places. How wide a column is follows from the longest text that it shows.
-/

namespace Wordcode.Report

open Listing

/-! ### Lines of rendered tables -/

/-- The rendered table consists of so many lines, each of them ended by a line feed; they are of the
given length and aligned at the joints, and show the titles and the rows of texts. -/
def RendersAligned (count length : Nat) (joints : List Nat) (titles : List (List Char))
    (rows : List (List (List Char))) (rendered : String) : Prop :=
  let thin : Style := {
    border := ' '
    divider := '│'
    padding := 1
    titleRule := ⟨'─', '┼'⟩
    bottomRule := ⟨'─', '┴'⟩ }
  ∃ lines, rendered.toList = lines.flatMap (fun l => l ++ ['\n']) ∧ (∀ l ∈ lines, '\n' ∉ l) ∧
    lines.length = count ∧ thin.Aligned length joints titles rows lines

theorem rendersAligned {α : Type} {t : Table α} (h : t.Readable) (hflush : t.Flush)
    (hstyle : t.style = style) :
    RendersAligned (t.rows.length + 3) (Style.endFrom 1 t.spans + 1)
      (Style.jointsFrom 1 t.spans) (t.columns.map fun c => c.title.toList)
      (t.rows.map fun row => t.columns.map fun c => (c.cell row).toList) t.render := by
  have hdistinct : style.Distinct style.titleRule ∧ style.Distinct style.bottomRule := by decide
  have haligned := Table.aligned h hflush (hstyle ▸ hdistinct.1) (hstyle ▸ hdistinct.2)
  have hcount := haligned.count
  rw [List.length_map] at hcount
  rw [hstyle] at haligned
  refine ⟨t.lines, ?_, fun l hl hmem => (h.unbroken l hl _ hmem).2 rfl, hcount, haligned⟩
  rw [Table.render, String.toList_ofList]

/-! ### Widths -/

theorem longest_of_length_eq {texts : List (List Char)} {n : Nat}
    (h : ∀ text ∈ texts, text.length = n) :
    Text.longest texts = if texts.length = 0 then 0 else n := by
  induction texts with
  | nil => rfl
  | cons first texts ih =>
    obtain ⟨hfirst, hrest⟩ := List.forall_mem_cons.1 h
    have hlongest : Text.longest (first :: texts) = max first.length (Text.longest texts) := rfl
    rw [hlongest, hfirst, ih hrest, List.length_cons, if_neg (Nat.succ_ne_zero texts.length)]
    split <;> omega

theorem length_written (w : Word) : w.written.length = 18 := by
  rw [Word.written, List.length_cons, List.length_cons, Text.Hexadecimal.length_padded]

theorem widths_listing (entries : List DecodedEntry) :
    (listing entries).widths =
      [max 4 (Text.longest (entries.map fun d => (toString d.entry.line).toList)),
       if entries.length = 0 then 4 else 18,
       max 7 (Text.longest (entries.map fun d => (resultText d.result).toList))] := by
  have hwords : Text.longest (entries.map fun d => (String.ofList d.entry.word.written).toList) =
      if entries.length = 0 then 0 else 18 := by
    rw [longest_of_length_eq (n := 18), List.length_map]
    rw [List.forall_mem_map]
    intro d _
    rw [String.toList_ofList, length_written]
  have hword : max "Word".toList.length (if entries.length = 0 then 0 else 18) =
      if entries.length = 0 then 4 else 18 := by
    split <;> rfl
  simp only [Table.widths, listing, List.map_cons, List.map_nil, Column.width_eq_max]
  rw [hwords, hword]
  rfl

theorem widths_instruction (i : Instruction) :
    (instruction i).widths = [9, max 5 (Text.longest ((parts i).map fun p => p.value.toList))] := by
  have hfields : (parts i).map (fun p => p.field.toList) =
      ["off0", "off1", "off2", "dst_reg", "op0_reg", "op1_src", "res_logic", "pc_update",
        "ap_update", "fp_update", "opcode"].map String.toList := rfl
  have hfield : max "Field".toList.length (Text.longest
      (["off0", "off1", "off2", "dst_reg", "op0_reg", "op1_src", "res_logic", "pc_update",
        "ap_update", "fp_update", "opcode"].map String.toList)) = 9 := by decide
  simp only [Table.widths, instruction, List.map_cons, List.map_nil, Column.width_eq_max]
  rw [hfields, hfield]
  rfl

/-! ### The two reports -/

theorem rendersAligned_listing (entries : List DecodedEntry) :
    let w1 := max 4 (Text.longest (entries.map fun d => (toString d.entry.line).toList))
    let w2 := if entries.length = 0 then 4 else 18
    let w3 := max 7 (Text.longest (entries.map fun d => (resultText d.result).toList))
    RendersAligned (entries.length + 3) (1 + (w1 + 2) + 1 + (w2 + 2) + 1 + (w3 + 2) + 1)
      [1 + (w1 + 2), 1 + (w1 + 2) + 1 + (w2 + 2)]
      ["Line".toList, "Word".toList, "Decoded".toList] (entries.map entryTexts)
      (listing entries).render := by
  intro w1 w2 w3
  have hspans : (listing entries).spans = [w1 + 2, w2 + 2, w3 + 2] := by
    rw [Table.spans, widths_listing]
    rfl
  have hflush : (listing entries).Flush := by
    simp [Table.Flush, listing]
  have hrenders := rendersAligned (readable_listing entries) hflush rfl
  rw [hspans, cells_listing] at hrenders
  exact hrenders

theorem rendersAligned_instruction (i : Instruction) :
    let w := max 5 (Text.longest ((parts i).map fun p => p.value.toList))
    RendersAligned 14 (1 + (9 + 2) + 1 + (w + 2) + 1) [1 + (9 + 2)]
      ["Field".toList, "Value".toList] ((parts i).map partTexts) (instruction i).render := by
  intro w
  have hspans : (instruction i).spans = [9 + 2, w + 2] := by
    rw [Table.spans, widths_instruction]
    rfl
  have hflush : (instruction i).Flush := by
    simp [Table.Flush, instruction]
  have hrenders := rendersAligned (readable_instruction i) hflush rfl
  rw [hspans, cells_instruction] at hrenders
  exact hrenders

/-- Both reports are rectangular and aligned. A rendered listing has three lines more than entries,
and the table of an instruction has fourteen lines. A column is as wide as its title or as the longest
of its texts, whichever is wider, so that all cells of a table meet at the same places: the dividers
stand there in lines of text, the crossings do in rules, and the texts next to them. -/
theorem reports_rendersAligned :
    (∀ entries : List DecodedEntry,
      let w1 := max 4 (Text.longest (entries.map fun d => (toString d.entry.line).toList))
      let w2 := if entries.length = 0 then 4 else 18
      let w3 := max 7 (Text.longest (entries.map fun d => (resultText d.result).toList))
      RendersAligned (entries.length + 3) (1 + (w1 + 2) + 1 + (w2 + 2) + 1 + (w3 + 2) + 1)
        [1 + (w1 + 2), 1 + (w1 + 2) + 1 + (w2 + 2)]
        ["Line".toList, "Word".toList, "Decoded".toList] (entries.map entryTexts)
        (listing entries).render) ∧
    ∀ i : Instruction,
      let w1 := 9
      let w2 := max 5 (Text.longest ((parts i).map fun p => p.value.toList))
      RendersAligned 14 (1 + (w1 + 2) + 1 + (w2 + 2) + 1) [1 + (w1 + 2)]
        ["Field".toList, "Value".toList] ((parts i).map partTexts) (instruction i).render :=
  ⟨rendersAligned_listing, rendersAligned_instruction⟩

end Wordcode.Report
