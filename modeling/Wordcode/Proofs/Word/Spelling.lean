import Wordcode.Listing.Grammar
import Wordcode.Proofs.Listing.Token

/-!
# Spellings of words

The reader of words accepts the spellings of words and nothing else
(`ofSpelling?_eq_some_iff_spells`): the base mark that it takes off is the one that the spelling
was written with, since no digit and no underscore is a letter of a mark.
-/

namespace Wordcode.Word

open Text.Hexadecimal

/-- A digit, or an underscore between digits. -/
def IsBody (s : List Char) : Prop := ∀ c ∈ s, isDigit c = true ∨ c = '_'

def IsMark (s : List Char) : Prop := s = [] ∨ s = ['0', 'x'] ∨ s = ['0', 'X']

theorem IsBody.dropBaseMark_eq {s : List Char} (h : IsBody s) : dropBaseMark s = s := by
  unfold dropBaseMark
  split
  · exact absurd (h 'x' (List.mem_cons_of_mem _ (List.mem_cons_self ..))) (by decide)
  · exact absurd (h 'X' (List.mem_cons_of_mem _ (List.mem_cons_self ..))) (by decide)
  · rfl

theorem dropBaseMark_append {mark body : List Char} (hmark : IsMark mark) (hbody : IsBody body) :
    dropBaseMark (mark ++ body) = body := by
  rcases hmark with hmark | hmark | hmark <;> rw [hmark]
  · exact hbody.dropBaseMark_eq
  · rfl
  · rfl

theorem exists_mark (s : List Char) : ∃ mark, IsMark mark ∧ s = mark ++ dropBaseMark s := by
  unfold dropBaseMark
  split
  · exact ⟨['0', 'x'], Or.inr (Or.inl rfl), rfl⟩
  · exact ⟨['0', 'X'], Or.inr (Or.inr rfl), rfl⟩
  · exact ⟨[], Or.inl rfl, rfl⟩

theorem ofSpelling?_eq_some_iff_spells {s : List Char} {w : Word} :
    ofSpelling? s = some w ↔ Spells s w := by
  rw [ofSpelling?_eq_some_iff]
  refine ⟨?_, ?_⟩
  · intro h
    obtain ⟨hne, hdigits, hvalue⟩ := h
    obtain ⟨mark, hmark, hs⟩ := exists_mark s
    refine ⟨mark, dropBaseMark s, hs, hmark, ?_, hne, hvalue⟩
    intro c hc
    by_cases hunder : c = '_'
    · exact Or.inr hunder
    · have hkept : c ∈ digitsOf s := List.mem_filter.2 ⟨hc, bne_iff_ne.2 hunder⟩
      exact Or.inl (hdigits c hkept)
  · intro h
    obtain ⟨mark, body, hs, hmark, hbody, hne, hvalue⟩ := h
    have hdigits : digitsOf s = body.filter fun c => c != '_' := by
      rw [digitsOf, hs, dropBaseMark_append hmark hbody]
    rw [hdigits]
    refine ⟨hne, ?_, hvalue⟩
    intro c hc
    obtain ⟨hmem, hunder⟩ := List.mem_filter.1 hc
    exact (hbody c hmem).resolve_right (bne_iff_ne.1 hunder)

theorem ofSpelling?_eq_none_iff {s : List Char} : ofSpelling? s = none ↔ ¬ ∃ w, Spells s w := by
  rw [Option.eq_none_iff_forall_not_mem, not_exists]
  exact forall_congr' fun w => not_congr ofSpelling?_eq_some_iff_spells

theorem Spells.ne_nil {s : List Char} {w : Word} (h : Spells s w) : s ≠ [] := by
  obtain ⟨mark, body, hs, _, _, hne, _⟩ := h
  intro hnil
  rw [hnil] at hs
  have hbody : body = [] := (List.append_eq_nil_iff.1 hs.symm).2
  rw [hbody] at hne
  exact hne rfl

theorem isTokenChar_of_isDigit {c : Char} (h : isDigit c = true) :
    Listing.isTokenChar c = true := by
  have hcode : 48 ≤ c.toNat ∧ c.toNat ≤ 57 ∨ 97 ≤ c.toNat ∧ c.toNat ≤ 102 ∨
      65 ≤ c.toNat ∧ c.toNat ≤ 70 := by
    simp only [isDigit, Bool.or_eq_true, Bool.and_eq_true, decide_eq_true_eq, or_assoc,
      Char.le_def, UInt32.le_iff_toNat_le] at h
    exact h
  have hspace : Text.isWhiteSpace c = false := by
    simp only [Text.isWhiteSpace, Text.whiteSpaceRanges, List.any_cons, List.any_nil,
      Bool.or_false, Bool.or_eq_false_iff, decide_eq_false_iff_not]
    omega
  have hmark : c ≠ '#' := by
    intro heq
    rw [heq] at h
    revert h
    decide
  rw [Listing.isTokenChar, hspace, bne_iff_ne.2 hmark]
  rfl

theorem Spells.isTokenChar {s : List Char} {w : Word} (h : Spells s w) :
    ∀ c ∈ s, Listing.isTokenChar c = true := by
  obtain ⟨mark, body, hs, hmark, hbody, _, _⟩ := h
  intro c hc
  rw [hs, List.mem_append] at hc
  rcases hc with hc | hc
  · have hall : mark.all Listing.isTokenChar = true := by
      rcases hmark with hmark | hmark | hmark <;> rw [hmark] <;> decide
    exact List.all_eq_true.1 hall c hc
  · rcases hbody c hc with hdigit | hunder
    · exact isTokenChar_of_isDigit hdigit
    · rw [hunder]
      decide

theorem spells_written (w : Word) : Spells (written w) w :=
  ofSpelling?_eq_some_iff_spells.1 (ofSpelling?_written w)

end Wordcode.Word
