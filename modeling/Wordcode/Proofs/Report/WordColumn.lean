import Wordcode.Proofs.Listing.Layout
import Wordcode.Proofs.Report.Listing

/-!
# The column of words

The column of words in a rendered listing is a listing itself. Words are written with a mark and
all their digits, which is one of their spellings; so the column reads back as the same words,
whatever results they were shown with, and decodes to the results that belong to them.
-/

namespace Wordcode.Report

open Listing

/-- The texts in the column of words of a rendered listing, from the first row to the last. -/
def wordColumn (rendered : String) : List (List Char) :=
  (style.rowTexts rendered).map fun texts => texts.getD 1 []

/-- The column of words as a text of its own, one word on each line. -/
def wordListing (lineEnd : Text.LineEnd) (rendered : String) : String :=
  String.ofList (Text.ofLines ((wordColumn rendered).map fun text => (text, lineEnd)) [])

theorem wordColumn_listing (entries : List DecodedEntry) :
    wordColumn (listing entries).render =
      (entries.map fun d => d.entry.word).map Word.written := by
  rw [wordColumn, rowTexts_listing, List.map_map, List.map_map]
  rfl

/-! ### Words on lines that follow each other -/

def numbered (number : Nat) (words : List Word) : List Entry :=
  words.mapIdx fun k w => ⟨number + k, w⟩

theorem numbered_cons (number : Nat) (w : Word) (words : List Word) :
    numbered number (w :: words) = ⟨number, w⟩ :: numbered (number + 1) words := by
  rw [numbered, List.mapIdx_cons]
  refine congrArg _ (List.mapIdx_eq_mapIdx_iff.2 fun k _ => ?_)
  rw [Nat.add_assoc, Nat.add_comm 1 k]

theorem map_numbered {α : Type} {f : Entry → α} {g : Word → α}
    (hf : ∀ line w, f ⟨line, w⟩ = g w) (number : Nat) (words : List Word) :
    (numbered number words).map f = words.map g := by
  induction words generalizing number with
  | nil => rfl
  | cons w words ih => rw [numbered_cons, List.map_cons, List.map_cons, hf, ih]

theorem holds_numbered (number : Nat) (words : List Word) :
    Holds number (words.map Word.written) (numbered number words) := by
  induction words generalizing number with
  | nil => exact Holds.nil
  | cons w words ih =>
    have hword := Word.spells_written w
    rw [List.map_cons, numbered_cons]
    exact Holds.word (hasToken_of_spells (shows_self _) hword) hword (ih (number + 1))

/-! ### Reading the column -/

theorem parse_wordListing (lineEnd : Text.LineEnd) (entries : List DecodedEntry) :
    parse (wordListing lineEnd (listing entries).render) =
      .ok (numbered 1 (entries.map fun d => d.entry.word)) := by
  rw [wordListing, wordColumn_listing]
  exact parse_ended lineEnd (holds_numbered 1 _)

theorem result_of_decode {text : String} {entries : List DecodedEntry}
    (h : decode text = .ok entries) :
    ∀ d ∈ entries, Instruction.decode d.entry.word = d.result := by
  rw [decode] at h
  cases hparse : parse text with
  | error e =>
    rw [hparse] at h
    cases h
  | ok read =>
    rw [hparse] at h
    rw [← Except.ok.inj h, List.forall_mem_map]
    exact fun e _ => rfl

/-- Whatever a rendered listing shows, its column of words reads as a listing of just these words,
on lines that follow each other. If the entries were decoded from a text, decoding the column
gives their results again, and a table that differs from the first in its line numbers alone. -/
theorem wordListing_reads_back (lineEnd : Text.LineEnd) (entries : List DecodedEntry) :
    parse (wordListing lineEnd (listing entries).render) =
      .ok (numbered 1 (entries.map fun d => d.entry.word)) ∧
    ∀ text, decode text = .ok entries →
      ∃ again, decode (wordListing lineEnd (listing entries).render) = .ok again ∧
        again.map DecodedEntry.result = entries.map DecodedEntry.result ∧
        (style.rowTexts (listing again).render).map (List.drop 1) =
          (style.rowTexts (listing entries).render).map (List.drop 1) := by
  have hparse := parse_wordListing lineEnd entries
  refine ⟨hparse, ?_⟩
  intro text htext
  have hresult := result_of_decode htext
  refine ⟨(numbered 1 (entries.map fun d => d.entry.word)).map Entry.decode, ?_, ?_, ?_⟩
  · rw [decode, hparse]
    rfl
  · rw [List.map_map, map_numbered (g := Instruction.decode) fun _ _ => rfl, List.map_map]
    exact List.map_congr_left hresult
  · rw [rowTexts_listing, rowTexts_listing, List.map_map, List.map_map, List.map_map,
      map_numbered (g := fun w =>
        [w.written, (resultText (Instruction.decode w)).toList]) fun _ _ => rfl, List.map_map]
    refine List.map_congr_left fun d hd => ?_
    rw [Function.comp_apply, Function.comp_apply, hresult d hd]
    rfl

theorem wordListing_reads_back_faults :
    decode "\n0x8000_0000_0000_0000 # fault\n0" =
      .ok [Entry.decode ⟨2, 0x8000000000000000⟩, Entry.decode ⟨3, 0⟩] ∧
    ∃ again, decode (wordListing .crLf (listing
        [Entry.decode ⟨2, 0x8000000000000000⟩, Entry.decode ⟨3, 0⟩]).render) = .ok again ∧
      again.map DecodedEntry.result = [.error .highBitSet, Instruction.decode 0] ∧
      (style.rowTexts (listing again).render).map (List.drop 1) =
        (style.rowTexts (listing
          [Entry.decode ⟨2, 0x8000000000000000⟩, Entry.decode ⟨3, 0⟩]).render).map
            (List.drop 1) := by
  have hdecode : decode "\n0x8000_0000_0000_0000 # fault\n0" =
      .ok [Entry.decode ⟨2, 0x8000000000000000⟩, Entry.decode ⟨3, 0⟩] := by
    have hparse : parse "\n0x8000_0000_0000_0000 # fault\n0" =
        .ok [⟨2, 0x8000000000000000⟩, ⟨3, 0⟩] := by decide
    rw [decode, hparse]
    rfl
  exact ⟨hdecode, (wordListing_reads_back .crLf _).2 _ hdecode⟩

end Wordcode.Report
