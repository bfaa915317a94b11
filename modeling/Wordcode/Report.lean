import Wordcode.Listing.Basic
import Wordcode.Table.Basic

/-!
# Reports

The two tables in which decoded words are shown: a listing with one line for each of its entries,
and a single instruction with one line for each of its parts.
-/

namespace Wordcode.Report

/-- Columns are divided by thin lines, and no line is drawn around the table
(`TABLE_DISPLAY_FORMAT`). -/
def style : Style where
  border := ' '
  divider := '│'
  padding := 1
  titleRule := ⟨'─', '┼'⟩
  bottomRule := ⟨'─', '┴'⟩

/-! ### Listings -/

/-- What a word stands for, on one line (the third cell of a row in `listing_table`). -/
def resultText : Except DecodeError Instruction → String
  | .ok i => i.summary
  | .error e => "error: " ++ e.message

/-- One row for each entry (`listing_table`): its line, its word as written, and what the word
stands for. -/
def listing (entries : List Listing.DecodedEntry) : Table Listing.DecodedEntry where
  style
  columns :=
    [⟨"Line", .right, fun d => toString d.entry.line⟩,
     ⟨"Word", .left, fun d => String.ofList d.entry.word.written⟩,
     ⟨"Decoded", .left, fun d => resultText d.result⟩]
  rows := entries

/-! ### Instructions -/

/-- A part of an instruction: the name of its place in the word, and what it is. -/
structure Part where
  field : String
  value : String
deriving DecidableEq, Repr

/-- The parts of an instruction in the order in which they are shown. -/
def parts (i : Instruction) : List Part :=
  [⟨"off0", Instruction.offsetText i.off0⟩,
   ⟨"off1", Instruction.offsetText i.off1⟩,
   ⟨"off2", Instruction.offsetText i.off2⟩,
   ⟨FlagField.dstReg.label, Named.name i.dst⟩,
   ⟨FlagField.op0Reg.label, Named.name i.op0⟩,
   ⟨FlagField.op1Src.label, Named.name i.op1⟩,
   ⟨FlagField.resLogic.label, Named.name i.res⟩,
   ⟨FlagField.pcUpdate.label, Named.name i.pc⟩,
   ⟨FlagField.apUpdate.label, Named.name i.ap⟩,
   ⟨"fp_update", Named.name i.fp⟩,
   ⟨FlagField.opcode.label, Named.name i.opcode⟩]

/-- One row for each part of the instruction (`instruction_table`). -/
def instruction (i : Instruction) : Table Part where
  style
  columns := [⟨"Field", .right, Part.field⟩, ⟨"Value", .left, Part.value⟩]
  rows := parts i

end Wordcode.Report
