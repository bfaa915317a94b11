import Wordcode.Listing.Basic

/-!
# What listings say

The meaning of a listing, told by its form alone and not by how it is read: which texts spell a
word, and which entries a run of lines holds.
-/

namespace Wordcode

/-- The text is a spelling of the word: perhaps a base mark, then digits and underscores in any
order, the digits being those of the word's number. -/
def Word.Spells (s : List Char) (w : Word) : Prop :=
  ∃ mark body,
    s = mark ++ body ∧
    (mark = [] ∨ mark = ['0', 'x'] ∨ mark = ['0', 'X']) ∧
    (∀ c ∈ body, Text.Hexadecimal.isDigit c = true ∨ c = '_') ∧
    (body.filter fun c => c != '_') ≠ [] ∧
    Text.Hexadecimal.value (body.filter fun c => c != '_') = w.toNat

namespace Listing

/-- Lines, the first of which has the given number, hold exactly these entries. -/
inductive Holds : (number : Nat) → List (List Char) → List Entry → Prop
  | nil {number : Nat} : Holds number [] []
  | bare {number : Nat} {line : List Char} {rest : List (List Char)} {entries : List Entry} :
      HasToken line [] → Holds (number + 1) rest entries → Holds number (line :: rest) entries
  | word {number : Nat} {line token : List Char} {w : Word} {rest : List (List Char)}
      {entries : List Entry} :
      HasToken line token → Word.Spells token w → Holds (number + 1) rest entries →
      Holds number (line :: rest) (⟨number, w⟩ :: entries)

/-! ### Renumbering -/

def Entry.renumber (f : Nat → Nat) (e : Entry) : Entry := ⟨f e.line, e.word⟩

def DecodedEntry.renumber (f : Nat → Nat) (d : DecodedEntry) : DecodedEntry :=
  ⟨d.entry.renumber f, d.result⟩

end Listing

def ListingError.renumber (f : Nat → Nat) : ListingError → ListingError
  | .malformedLine line text => .malformedLine (f line) text
  | .invalidWord line text => .invalidWord (f line) text

end Wordcode
