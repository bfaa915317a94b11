import Wordcode.BitRange

/-!
# Instruction words

An instruction word has 64 bits: three biased offsets of 16 bits each, then a block of 15 flag
bits, and a highest bit that no instruction sets. This module cuts a word into its lanes and
unbiases offsets. Main statements: a stored offset stands for the integer 32768 below it
(`Offset.toInt_unbias`), and storing and reading an offset are inverse to each other.
-/

namespace Wordcode

/-- An instruction word (`EncodedInstruction`). -/
abbrev Word := UInt64

/-- The four lanes of a word, lowest bits first (`RawFields`). -/
structure Lanes where
  off0 : UInt16
  off1 : UInt16
  off2 : UInt16
  flags : UInt16
deriving DecidableEq, Repr

namespace Word

/-- Lane `k` takes the 16 bits from bit `16 k` upwards. -/
def laneRange (k : Nat) : BitRange := ⟨16 * k, 16⟩

def lane (w : Word) (k : Nat) : UInt16 := UInt16.ofNat ((laneRange k).get w.toNat)

/-- The word cut into its lanes (`split_word`). -/
def lanes (w : Word) : Lanes := ⟨w.lane 0, w.lane 1, w.lane 2, w.lane 3⟩

/-- The one bit that belongs to no offset and to no flag. -/
def highBitRange : BitRange := ⟨63, 1⟩

/-- The high bit is set, which `decode_instruction` tests before all else. -/
def highBit (w : Word) : Bool := highBitRange.get w.toNat != 0

end Word

/-! ### Offsets -/

namespace Offset

/-- Offsets are stored `0x8000` too high, so that every stored value is an offset
(`decode_offset`). -/
def unbias (raw : UInt16) : Int16 := (raw - 0x8000).toInt16

def bias (o : Int16) : UInt16 := o.toUInt16 + 0x8000

theorem toInt_unbias (raw : UInt16) : (unbias raw).toInt = (raw.toNat : Int) - 0x8000 := by
  have hraw : raw.toNat < 65536 := raw.toNat_lt
  have hsub : (raw - 0x8000).toNat = (65536 - 32768 + raw.toNat) % 65536 := by
    rw [UInt16.toNat_sub]; rfl
  have hint : (unbias raw).toInt = (raw - 0x8000).toBitVec.toInt := rfl
  rw [hint, BitVec.toInt_eq_toNat_cond, UInt16.toNat_toBitVec, hsub]
  split <;> omega

theorem bias_unbias (raw : UInt16) : bias (unbias raw) = raw := by
  rw [bias, unbias, UInt16.toUInt16_toInt16]
  exact UInt16.sub_add_cancel raw 0x8000

theorem unbias_bias (o : Int16) : unbias (bias o) = o := by
  rw [bias, unbias, UInt16.add_sub_cancel, Int16.toInt16_toUInt16]

theorem toNat_bias (o : Int16) : ((bias o).toNat : Int) = o.toInt + 0x8000 := by
  have h := toInt_unbias (bias o)
  rw [unbias_bias] at h
  omega

end Offset

end Wordcode
