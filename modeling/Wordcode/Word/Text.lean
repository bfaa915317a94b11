import Wordcode.Text.Hexadecimal
import Wordcode.Word.Basic

/-!
# The text of a word

A word is written as `0x` and its sixteen hexadecimal digits in lower case. It is read from freer
spellings: the mark `0x` or `0X` may be left out, digits may be of either case and as many as one
likes, and underscores may stand anywhere behind the mark. A spelling whose number needs more
than 64 bits is refused.
-/

namespace Wordcode.Word

open Text.Hexadecimal

/-- The written form of a word. -/
def written (w : Word) : List Char := '0' :: 'x' :: padded 16 w.toNat

/-- The spelling without the mark of its base, if it has one (`hex_prefix_p`). -/
def dropBaseMark : List Char → List Char
  | '0' :: 'x' :: s => s
  | '0' :: 'X' :: s => s
  | s => s

/-- The digits of a spelling: the base mark comes off first, and then every underscore. -/
def digitsOf (s : List Char) : List Char := (dropBaseMark s).filter fun c => c != '_'

/-- The word that a text spells, if it is a spelling of one (`parse_word`). -/
def ofSpelling? (s : List Char) : Option Word :=
  let digits := digitsOf s
  if digits ≠ [] ∧ digits.all isDigit ∧ value digits < UInt64.size then
    some (UInt64.ofNat (value digits))
  else
    none

theorem ofSpelling?_eq_some_iff {s : List Char} {w : Word} :
    ofSpelling? s = some w ↔
      digitsOf s ≠ [] ∧ (∀ c ∈ digitsOf s, isDigit c = true) ∧
        value (digitsOf s) = w.toNat := by
  have hw : w.toNat < UInt64.size := w.toNat_lt_size
  simp only [ofSpelling?, List.all_eq_true]
  constructor
  · intro h
    split at h
    · next hs =>
      obtain ⟨hne, hall, hlt⟩ := hs
      have hw' := congrArg UInt64.toNat (Option.some.inj h)
      rw [UInt64.toNat_ofNat', Nat.mod_eq_of_lt hlt] at hw'
      exact ⟨hne, hall, hw'⟩
    · cases h
  · rintro ⟨hne, hall, hval⟩
    rw [if_pos ⟨hne, hall, by omega⟩, hval, UInt64.ofNat_toNat]

/-- The written form is one of the spellings of the word. -/
theorem ofSpelling?_written (w : Word) : ofSpelling? (written w) = some w := by
  have hfree : ∀ c ∈ padded 16 w.toNat, (c != '_') = true := by
    intro c hc
    have hd := isDigit_of_mem_padded hc
    simp only [bne_iff_ne, ne_eq]
    rintro rfl
    revert hd
    decide
  have hdigits : digitsOf (written w) = padded 16 w.toNat :=
    List.filter_eq_self.2 hfree
  have hw : w.toNat < UInt64.size := w.toNat_lt_size
  rw [ofSpelling?_eq_some_iff, hdigits]
  refine ⟨?_, fun c => isDigit_of_mem_padded, ?_⟩
  · intro h
    have hlen := congrArg List.length h
    rw [length_padded] at hlen
    cases hlen
  · rw [value_padded]
    exact Nat.mod_eq_of_lt (by omega)

end Wordcode.Word
