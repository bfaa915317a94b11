import Wordcode.Report

/-!
# Demonstration

A small listing and everything that the reports show of it: the listing as a table, then each of
its instructions as a table of its own.
-/

namespace Wordcode.Demonstration

/-- The lines of the listing that `main` shows. -/
def source : List String :=
  ["",
   "# Instruction words only; immediates are left out.",
   "0x4806_8001_7FFF_8000   # [ap] = imm, ap++",
   "0x1104_8001_8001_8000   # call rel imm",
   "0x0203_8000_8000_8000   # jnz",
   "0x208B_7FFF_7FFF_7FFE   # ret",
   "",
   "# Not instructions:",
   "0x8000_8000_8000_8000   # high bit set",
   "0x000C_8000_8000_8000   # op1_src = 3"]

def text : String := String.join (source.map fun line => line ++ "\n")

/-- The table of an entry that is an instruction, under the number of its line. -/
def entryReport (d : Listing.DecodedEntry) : String :=
  match d.result with
  | .ok i => "Line " ++ toString d.entry.line ++ ":\n" ++ (Report.instruction i).render ++ "\n"
  | .error _ => ""

/-- What `main` shows of a text: its tables, or what keeps it from being a listing. -/
def report (text : String) : String :=
  match Listing.decode text with
  | .ok entries => (Report.listing entries).render ++ "\n" ++ String.join (entries.map entryReport)
  | .error e => e.message

end Wordcode.Demonstration
