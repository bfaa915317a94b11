import Wordcode.Instruction.Encode
import Wordcode.Instruction.Faults

/-!
# Fields and the bits of a word

What the fields of a flag block read, in terms of the number of the word: each field gives the
bits of its own range (`toNat_code`), the high bit is bit 63, and the fields together give the
whole flag block except for that bit (`assemble_read`).
-/

namespace Wordcode

/-! ### Flag blocks -/

namespace FlagField

theorem read_lt (f : FlagField) (flags : UInt16) : (f.read flags).toNat < f.range.bound := by
  rw [toNat_read]
  exact f.range.get_lt flags.toNat

theorem assemble_read {flags : UInt16} (h : flags.toNat < 0x8000) :
    assemble (fun f => f.read flags) = flags := by
  have hfits : Fits fun f => f.read flags := fun f => f.read_lt flags
  apply UInt16.toNat_inj.1
  rw [toNat_assemble hfits]
  simp only [toNat_read, range, BitRange.get, BitRange.bound, Nat.reduceShiftLeft,
    Nat.shiftRight_eq_div_pow, Nat.reducePow]
  omega

end FlagField

/-! ### Words -/

namespace Word

theorem toNat_flags (w : Word) : w.lanes.flags.toNat = w.toNat >>> 48 := by
  have hw : w.toNat < 0x1_0000_0000_0000_0000 := w.toNat_lt_size
  have hlane : w.lanes.flags.toNat = w.toNat >>> (16 * 3) % 0x1_0000 := toNat_lane w 3
  rw [hlane]
  simp only [Nat.shiftRight_eq_div_pow, Nat.reduceMul, Nat.reducePow]
  omega

theorem highBit_eq_testBit (w : Word) : w.highBit = w.toNat.testBit 63 := by
  have hbit : highBitRange.get w.toNat = w.toNat >>> 63 % 2 := rfl
  rw [highBit, hbit, Nat.testBit_eq_decide_div_mod_eq, ← Nat.shiftRight_eq_div_pow]
  rcases Nat.mod_two_eq_zero_or_one (w.toNat >>> 63) with h | h <;> simp only [h] <;> rfl

theorem highBit_eq_false_iff {w : Word} : w.highBit = false ↔ w.lanes.flags.toNat < 0x8000 := by
  have hw : w.toNat < 0x1_0000_0000_0000_0000 := w.toNat_lt_size
  rw [highBit_eq_testBit, Nat.testBit_eq_decide_div_mod_eq, decide_eq_false_iff_not, toNat_flags]
  simp only [Nat.shiftRight_eq_div_pow, Nat.reducePow]
  omega

theorem toNat_code (w : Word) (f : FlagField) : (w.code f).toNat = f.wordRange.get w.toNat := by
  rw [code, FlagField.toNat_read, toNat_flags, BitRange.get, BitRange.get, ← Nat.shiftRight_add]
  rfl

end Word

end Wordcode
