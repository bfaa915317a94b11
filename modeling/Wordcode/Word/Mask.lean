import Wordcode.Word.FlagField

/-!
# Masks

A range of bits can be read by machine operations: the other bits are masked out, the range is
shifted down, and the number is narrowed to the width that holds it. Lanes are shifted down first
and masked then. This module has the masks and shifts of a word and of its flag block; that they
read what the ranges say is shown with the tiling of a word.
-/

namespace Wordcode

/-- The number that has the bits of the range and no others. -/
def BitRange.mask (r : BitRange) : Nat := (r.bound - 1) <<< r.lo

namespace FlagField

/-- The bits of the field in the flag block (first of the pairs `DST_REG` to `OPCODE`). -/
def mask : FlagField → UInt16
  | .dstReg => 0x0001
  | .op0Reg => 0x0002
  | .op1Src => 0x001C
  | .resLogic => 0x0060
  | .pcUpdate => 0x0380
  | .apUpdate => 0x0C00
  | .opcode => 0x7000

/-- The place of the lowest of these bits (second of the pairs). -/
def shift : FlagField → UInt16
  | .dstReg => 0
  | .op0Reg => 1
  | .op1Src => 2
  | .resLogic => 5
  | .pcUpdate => 7
  | .apUpdate => 10
  | .opcode => 12

/-- The code of the field by mask, shift and narrowing (`field`). -/
def maskedRead (f : FlagField) (flags : UInt16) : UInt8 :=
  ((flags &&& f.mask) >>> f.shift).toUInt8

end FlagField

namespace Word

/-- All bits of the lowest lane (`LANE_MASK`). -/
def laneMask : Word := 0xFFFF

/-- The high bit alone (`HIGH_BIT_MASK`). -/
def highBitMask : Word := (1 : Word) <<< (63 : Word)

def maskedLane (w shift : Word) : UInt16 := ((w >>> shift) &&& laneMask).toUInt16

/-- The lanes by shift, mask and narrowing (`split_word`). -/
def maskedLanes (w : Word) : Lanes :=
  ⟨w.maskedLane 0, w.maskedLane 16, w.maskedLane 32, w.maskedLane 48⟩

end Word

end Wordcode
