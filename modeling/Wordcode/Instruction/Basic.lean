import Wordcode.Instruction.Parts

/-!
# Instructions

An instruction is what its flags choose, its `Control`, with three offsets. Any combination of
parts is a value of the type; which of them words stand for is said where words are decoded and
encoded. This module also holds what does not depend on words: the length of an instruction and
its description in one line.
-/

namespace Wordcode

/-- The choices that the flags of an instruction make (`DecodedFlags`). -/
structure Control where
  /-- The register that the destination is relative to. -/
  dst : Register
  /-- The register that the first operand is relative to. -/
  op0 : Register
  op1 : Op1Source
  res : ResLogic
  pc : PcUpdate
  ap : ApUpdate
  fp : FpUpdate
  opcode : Opcode
deriving DecidableEq, Repr

/-- An instruction with its offsets, which move the destination and the two operands. -/
structure Instruction extends Control where
  off0 : Int16
  off1 : Int16
  off2 : Int16
deriving DecidableEq, Repr

namespace Instruction

/-- The number of words that the instruction takes (`size`): an immediate operand is one more. -/
def size (i : Instruction) : Nat := if i.op1 = .imm then 2 else 1

/-- Offsets are written in decimal, with a sign only if they are negative. -/
def offsetText (o : Int16) : String := toString o.toInt

/-- The instruction on one line (`fmt` of `Instruction`): its class, then every other part behind
its short name. -/
def summary (i : Instruction) : String :=
  Named.name i.opcode
    ++ " off=(" ++ offsetText i.off0 ++ ", " ++ offsetText i.off1 ++ ", " ++ offsetText i.off2
    ++ ") dst=" ++ Named.name i.dst ++ " op0=" ++ Named.name i.op0 ++ " op1=" ++ Named.name i.op1
    ++ " res=" ++ Named.name i.res ++ " pc=" ++ Named.name i.pc ++ " ap=" ++ Named.name i.ap
    ++ " fp=" ++ Named.name i.fp

end Instruction

end Wordcode
