import Wordcode.Instruction.Decode
import Wordcode.Listing.Line
import Wordcode.Text.Lines
import Wordcode.Word.Text

/-!
# Listings

A listing is a text with at most one word on each line. Reading it gives the words with the
numbers of their lines, counted from 1, or the first line that cannot be read. Whether a word
stands for an instruction is another question: `decode` answers it for each entry apart.
-/

namespace Wordcode

/-- Why a text is no listing. -/
inductive ListingError where
  /-- The line holds something other than one token and a comment. -/
  | malformedLine (line : Nat) (text : String)
  /-- The token of the line is no spelling of a word. -/
  | invalidWord (line : Nat) (text : String)
deriving DecidableEq, Repr

/-- The text of the error (`fmt` of `ListingError`). -/
def ListingError.message : ListingError → String
  | .malformedLine line text =>
    "Error on line " ++ toString line ++ ": expected a single word, found `" ++ text ++ "`."
  | .invalidWord line text =>
    "Error on line " ++ toString line ++ ": `" ++ text ++ "` is not a 64 bit hexadecimal word."

namespace Listing

/-- A word and the number of the line that it stands on (`ListingEntry`). -/
structure Entry where
  line : Nat
  word : Word
deriving DecidableEq, Repr

/-- An entry and what its word stands for. -/
structure DecodedEntry where
  entry : Entry
  result : Except DecodeError Instruction

/-! ### Reading -/

/-- The entry on a line, if there is one: one round of `parse_listing`. `number` is the number of
the line. -/
def readLine (number : Nat) (line : List Char) : Except ListingError (Option Entry) :=
  match token? line with
  | none => .error (.malformedLine number (String.ofList (Text.trim line)))
  | some [] => .ok none
  | some token =>
    match Word.ofSpelling? token with
    | none => .error (.invalidWord number (String.ofList token))
    | some word => .ok (some ⟨number, word⟩)

/-- The entries on a run of lines, the first of which has the given number (the loop of
`parse_listing`). -/
def readLines (number : Nat) : List (List Char) → Except ListingError (List Entry)
  | [] => .ok []
  | line :: rest => do
    let entry ← readLine number line
    let entries ← readLines (number + 1) rest
    return entry.toList ++ entries

/-- The entries of a listing in the order of their lines (`parse_listing`). -/
def parse (text : String) : Except ListingError (List Entry) :=
  readLines 1 (Text.lines text.toList)

/-! ### Decoding -/

def Entry.decode (e : Entry) : DecodedEntry := ⟨e, Instruction.decode e.word⟩

/-- The entries of a listing, decoded one by one (`decode_listing`); a word that stands for no
instruction does not keep the others from being shown. -/
def decode (text : String) : Except ListingError (List DecodedEntry) :=
  (parse text).map fun entries => entries.map Entry.decode

end Listing

end Wordcode
