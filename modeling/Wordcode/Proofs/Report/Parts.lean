import Wordcode.Proofs.Report.Listing

/-!
# Tables of single instructions

The table of an instruction shows the same values as its summary, under the names of the fields
and in another order. They come back from the rendered table row by row (`rowTexts_instruction`),
the summary can be put together from them, and so the table determines the instruction.
-/

namespace Wordcode.Report

/-! ### Texts in cells -/

theorem isAtom_parts (i : Instruction) :
    ∀ p ∈ parts i, Text.IsAtom p.field.toList ∧ Text.IsAtom p.value.toList := by
  simp only [parts, List.forall_mem_cons]
  exact ⟨⟨by decide, Instruction.isAtom_offsetText _⟩,
    ⟨by decide, Instruction.isAtom_offsetText _⟩, ⟨by decide, Instruction.isAtom_offsetText _⟩,
    ⟨by decide, Text.isAtom_name (by decide) _⟩, ⟨by decide, Text.isAtom_name (by decide) _⟩,
    ⟨by decide, Text.isAtom_name (by decide) _⟩, ⟨by decide, Text.isAtom_name (by decide) _⟩,
    ⟨by decide, Text.isAtom_name (by decide) _⟩, ⟨by decide, Text.isAtom_name (by decide) _⟩,
    ⟨by decide, Text.isAtom_name (by decide) _⟩, ⟨by decide, Text.isAtom_name (by decide) _⟩,
    List.forall_mem_nil _⟩

theorem readable_instruction (i : Instruction) : (instruction i).Readable where
  style := readable_style
  columns := List.cons_ne_nil _ _
  titles := by
    simp only [instruction, List.forall_mem_cons]
    exact ⟨Text.IsAtom.isCell (by decide) (by decide), Text.IsAtom.isCell (by decide) (by decide),
      List.forall_mem_nil _⟩
  cells := by
    simp only [instruction, List.forall_mem_cons]
    exact ⟨fun p hp => Text.IsAtom.isCell (by decide) (isAtom_parts i p hp).1,
      fun p hp => Text.IsAtom.isCell (by decide) (isAtom_parts i p hp).2, List.forall_mem_nil _⟩

/-- The texts that the table of an instruction shows of a part. -/
def partTexts (p : Part) : List (List Char) := [p.field.toList, p.value.toList]

theorem cells_instruction (i : Instruction) :
    ((instruction i).rows.map fun p =>
      (instruction i).columns.map fun c => (c.cell p).toList) = (parts i).map partTexts := by
  simp only [instruction, List.map_cons, List.map_nil]
  rfl

theorem rowTexts_instruction (i : Instruction) :
    style.rowTexts (instruction i).render = (parts i).map partTexts := by
  have hrows := Table.rowTexts_render (readable_instruction i)
  rw [cells_instruction] at hrows
  exact hrows

/-! ### Values -/

/-- The rows of a table that shows the fields of an instruction with the values `v`. -/
def fieldRows (v : Fin 11 → List Char) : List (List (List Char)) :=
  [["off0".toList, v 0], ["off1".toList, v 1], ["off2".toList, v 2], ["dst_reg".toList, v 3],
   ["op0_reg".toList, v 4], ["op1_src".toList, v 5], ["res_logic".toList, v 6],
   ["pc_update".toList, v 7], ["ap_update".toList, v 8], ["fp_update".toList, v 9],
   ["opcode".toList, v 10]]

/-- The line that describes an instruction whose fields have the values `v`. -/
def summaryOfValues (v : Fin 11 → List Char) : List Char :=
  v 10 ++ " off=(".toList ++ v 0 ++ ", ".toList ++ v 1 ++ ", ".toList ++ v 2 ++ ") dst=".toList
    ++ v 3 ++ " op0=".toList ++ v 4 ++ " op1=".toList ++ v 5 ++ " res=".toList ++ v 6
    ++ " pc=".toList ++ v 7 ++ " ap=".toList ++ v 8 ++ " fp=".toList ++ v 9

theorem fieldRows_injective {v v' : Fin 11 → List Char} (h : fieldRows v = fieldRows v') :
    v = v' := by
  have hvalues := congrArg (List.map fun row => row.getD 1 []) h
  have hofFn (u : Fin 11 → List Char) :
      (fieldRows u).map (fun row => row.getD 1 []) = List.ofFn u := rfl
  rw [hofFn, hofFn] at hvalues
  exact List.ofFn_injective hvalues

theorem exists_values (i : Instruction) :
    ∃ v, style.rowTexts (instruction i).render = fieldRows v ∧
      i.summary.toList = summaryOfValues v := by
  refine ⟨fun k => ((parts i).get k).value.toList, ?_, ?_⟩
  · rw [rowTexts_instruction]
    rfl
  · unfold Instruction.summary
    simp only [String.toList_append]
    rfl

/-- The values in the table of an instruction, put behind the names that the summary has for them,
are its summary; so the table determines the instruction, whatever its parts are. -/
theorem instruction_render_agrees_summary (i : Instruction) :
    (∃ v, style.rowTexts (instruction i).render = fieldRows v ∧
      i.summary.toList = summaryOfValues v) ∧
    ∀ j, (instruction i).render = (instruction j).render ↔ i = j := by
  obtain ⟨v, hrows, hsummary⟩ := exists_values i
  refine ⟨⟨v, hrows, hsummary⟩, fun j => ⟨?_, fun h => by rw [h]⟩⟩
  intro h
  obtain ⟨v', hrows', hsummary'⟩ := exists_values j
  have hvalues : v = v' := by
    refine fieldRows_injective ?_
    rw [← hrows, ← hrows', h]
  refine Instruction.summary_injective (String.toList_inj.1 ?_)
  rw [hsummary, hsummary', hvalues]

end Wordcode.Report
