import Wordcode.Instruction.Decode

/-!
# Faults

All that keeps a word from standing for an instruction, in the order in which decoding looks for
it, and what it takes to mend it. The faults are read off the word alone: its high bit, and in
each field a code that is not among the legal ones.
-/

namespace Wordcode

namespace FlagField

/-- The codes that stand for something in the field. -/
def legalCodes : FlagField → List UInt8
  | .dstReg | .op0Reg => [0, 1]
  | .op1Src | .pcUpdate | .opcode => [0, 1, 2, 4]
  | .resLogic | .apUpdate => [0, 1, 2]

/-- The fields that can hold an illegal code. A field on which another one depends comes first. -/
def checked : List FlagField := [.op1Src, .pcUpdate, .resLogic, .opcode, .apUpdate]

end FlagField

namespace Word

/-- The code that the word holds in a flag field. -/
def code (w : Word) (f : FlagField) : UInt8 := f.read w.lanes.flags

/-- Every fault of the word, first the high bit and then the illegal codes. -/
def faults (w : Word) : List DecodeError :=
  (if w.highBit then [.highBitSet] else []) ++
    (FlagField.checked.filter fun f => w.code f ∉ f.legalCodes).map fun f =>
      .illegalCode f (w.code f)

/-! ### Repair -/

/-- The word with one fault mended; `choice` gives the code that an illegal one is replaced by. -/
def repair (choice : FlagField → UInt8) (w : Word) : DecodeError → Word
  | .highBitSet => w.clearHighBit
  | .illegalCode f _ => w.withCode f (choice f)

/-- Decodes and mends the reported fault over and over, at most `steps` times. Gives the faults in
the order of their reports, and the last word. -/
def repairs (choice : FlagField → UInt8) : (steps : Nat) → Word → List DecodeError × Word
  | 0, w => ([], w)
  | steps + 1, w =>
    match Instruction.decode w with
    | .ok _ => ([], w)
    | .error e =>
      let (reports, last) := repairs choice steps (w.repair choice e)
      (e :: reports, last)

end Word

end Wordcode
