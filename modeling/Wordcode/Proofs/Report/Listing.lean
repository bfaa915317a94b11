import Wordcode.Proofs.Report.Texts

/-!
# Rendered listings

Every text that the table of a listing shows can be told from the lines around it, whatever the
entries are, so the texts come back from the rendered table row by row (`rowTexts_listing`). As
each of them determines what it shows, the table determines its entries.
-/

namespace Wordcode

theorem Word.written_injective {v w : Word} (h : v.written = w.written) : v = w := by
  have hread := congrArg Word.ofSpelling? h
  rw [Word.ofSpelling?_written, Word.ofSpelling?_written] at hread
  exact Option.some.inj hread

namespace Report

open Listing

/-! ### Texts in cells -/

theorem readable_style : style.Readable where
  divider_ne := by decide
  unbroken := by simp [style]

/-- The texts that the table of a listing shows of an entry. -/
def entryTexts (d : DecodedEntry) : List (List Char) :=
  [(toString d.entry.line).toList, d.entry.word.written, (resultText d.result).toList]

theorem isCell_resultText (r : Except DecodeError Instruction) :
    Text.IsCell style.divider (resultText r).toList := by
  rw [toList_resultText]
  exact Text.isCell_phrase (by decide) (isPhrase_resultText r)

theorem isCell_written (w : Word) : Text.IsCell style.divider (String.ofList w.written).toList := by
  apply Text.IsAtom.isCell (by decide)
  rw [String.toList_ofList]
  exact Text.isAtom_written w

theorem readable_listing (entries : List DecodedEntry) : (listing entries).Readable where
  style := readable_style
  columns := List.cons_ne_nil _ _
  titles := by
    simp only [listing, List.forall_mem_cons]
    exact ⟨Text.IsAtom.isCell (by decide) (by decide), Text.IsAtom.isCell (by decide) (by decide),
      Text.IsAtom.isCell (by decide) (by decide), List.forall_mem_nil _⟩
  cells := by
    simp only [listing, List.forall_mem_cons]
    exact ⟨fun d _ => Text.IsAtom.isCell (by decide) (Text.isAtom_decimal _),
      fun d _ => isCell_written _, fun d _ => isCell_resultText _, List.forall_mem_nil _⟩

theorem cells_listing (entries : List DecodedEntry) :
    ((listing entries).rows.map fun d =>
      (listing entries).columns.map fun c => (c.cell d).toList) = entries.map entryTexts := by
  simp only [listing, List.map_cons, List.map_nil, String.toList_ofList]
  rfl

theorem rowTexts_listing (entries : List DecodedEntry) :
    style.rowTexts (listing entries).render = entries.map entryTexts := by
  have hrows := Table.rowTexts_render (readable_listing entries)
  rw [cells_listing] at hrows
  exact hrows

/-! ### Entries -/

theorem entryTexts_injective {d d' : DecodedEntry} (h : entryTexts d = entryTexts d') :
    d = d' := by
  obtain ⟨⟨line, word⟩, result⟩ := d
  obtain ⟨⟨line', word'⟩, result'⟩ := d'
  simp only [entryTexts, List.cons.injEq, and_true, String.toList_inj] at h
  obtain ⟨hline, hword, hresult⟩ := h
  rw [Nat.repr_injective hline, Word.written_injective hword, resultText_injective hresult]

/-- A rendered listing determines its entries: their number and order, and of each of them the
line, the word, and the instruction or the fault that it is shown with. -/
theorem listing_render_eq_iff (entries entries' : List DecodedEntry) :
    (listing entries).render = (listing entries').render ↔ entries = entries' := by
  refine ⟨?_, fun h => by rw [h]⟩
  intro h
  have hrows := congrArg style.rowTexts h
  rw [rowTexts_listing, rowTexts_listing] at hrows
  exact (List.map_inj_right fun _ _ => entryTexts_injective).1 hrows

end Report

end Wordcode
