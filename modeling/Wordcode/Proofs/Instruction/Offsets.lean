import Mathlib.Algebra.Ring.Int.Defs
import Mathlib.Data.Nat.Cast.Basic
import Wordcode.Proofs.Instruction.RoundTrip
import Wordcode.Proofs.Word.Edits

/-!
# Moving offsets

An offset may be moved in the word itself, by an amount added to the word at the place of the
offset's lane. As long as the lane does not overflow, this moves the one offset by that amount and
leaves everything else as it was, the fault of a word that stands for no instruction included: what
a word stands for comes from its lanes, and each offset from its own lane alone
(`offset_of_decode`).
-/

namespace Wordcode

theorem Offset.unbias_lt_iff {raw raw' : UInt16} :
    (Offset.unbias raw).toInt < (Offset.unbias raw').toInt ↔ raw < raw' := by
  rw [Offset.toInt_unbias, Offset.toInt_unbias, UInt16.lt_iff_toNat_lt]
  omega

theorem Word.highBit_eq_of_flags_eq {w v : Word} (h : v.lanes.flags = w.lanes.flags) :
    v.highBit = w.highBit := by
  have hclear : v.highBit = false ↔ w.highBit = false := by
    rw [highBit_eq_false_iff, highBit_eq_false_iff, h]
  cases hw : w.highBit with
  | false => exact hclear.2 hw
  | true =>
    rw [← Bool.not_eq_false, hclear, hw]
    decide

namespace Instruction

/-- The offset that lane `k` of a word holds. -/
def offset (i : Instruction) : Fin 3 → Int16
  | 0 => i.off0
  | 1 => i.off1
  | 2 => i.off2

theorem offset_of_decode {w : Word} {i : Instruction} (h : Instruction.decode w = .ok i)
    (k : Fin 3) : i.offset k = Offset.unbias (w.lane k) := by
  obtain ⟨_, _, h0, h1, h2⟩ := decode_eq_ok_iff_parts.1 h
  match k with
  | 0 => exact h0.symm
  | 1 => exact h1.symm
  | 2 => exact h2.symm

/-- Words with the same flags stand for instructions that differ in nothing but their offsets, or
have the same fault. -/
theorem decode_eq_map_of_flags_eq {w v : Word} (h : v.lanes.flags = w.lanes.flags) :
    Instruction.decode v = (Instruction.decode w).map fun i =>
      { i with
        off0 := Offset.unbias v.lanes.off0
        off1 := Offset.unbias v.lanes.off1
        off2 := Offset.unbias v.lanes.off2 } := by
  rw [Instruction.decode, Instruction.decode, Word.highBit_eq_of_flags_eq h, h]
  cases w.highBit with
  | true => rfl
  | false => cases Control.decode w.lanes.flags <;> rfl

end Instruction

/-! ### Amounts added at a lane -/

theorem Word.exists_add_at_lane (w : Word) {k : Nat} (hk : k < 4) {d : Int}
    (hlow : 0 ≤ ((w.lane k).toNat : Int) + d) (hhigh : ((w.lane k).toNat : Int) + d ≤ 65535) :
    ∃ w' : Word, (w'.toNat : Int) = w.toNat + d * 2 ^ (16 * k) ∧
      ((w'.lane k).toNat : Int) = (w.lane k).toNat + d ∧
      ∀ j, j ≠ k → w'.lane j = w.lane j := by
  obtain ⟨raw, hraw⟩ : ∃ raw : UInt16, (raw.toNat : Int) = (w.lane k).toNat + d := by
    refine ⟨UInt16.ofNat ((w.lane k).toNat + d).toNat, ?_⟩
    rw [UInt16.toNat_ofNat']
    omega
  refine ⟨w.write (laneRange k) raw.toNat, ?_, ?_, fun j hj => lane_write_of_ne w hk raw hj⟩
  · have hplace : ((1 <<< (16 * k) : Nat) : Int) = 2 ^ (16 * k) := by
      rw [Nat.one_shiftLeft]
      exact Nat.cast_pow 2 (16 * k)
    have hsum := congrArg (Nat.cast : Nat → Int) (toNat_write_lane w hk raw)
    rw [Nat.cast_add, Nat.cast_add, Nat.cast_mul, Nat.cast_mul, hplace, hraw, add_mul] at hsum
    omega
  · rw [lane_write_self w hk raw, hraw]

namespace Instruction

/-- An amount added to a word at the lane of an offset moves this offset by as much and leaves the
outcome of decoding as it was in all else, if it keeps the lane in its range. So each offset grows
with its own lane and does not depend on any other. -/
theorem decode_add_at_lane :
    (∀ (w : Word) (k : Fin 3) (d : Int), 0 ≤ ((w.lane k).toNat : Int) + d →
      ((w.lane k).toNat : Int) + d ≤ 65535 →
      ∃ w' : Word, (w'.toNat : Int) = w.toNat + d * 2 ^ (16 * k.val) ∧
        (∀ e, Instruction.decode w = .error e → Instruction.decode w' = .error e) ∧
        ∀ i, Instruction.decode w = .ok i → ∃ i', Instruction.decode w' = .ok i' ∧
          (i'.offset k).toInt = (i.offset k).toInt + d ∧
          (∀ j, j ≠ k → i'.offset j = i.offset j) ∧ i'.toControl = i.toControl) ∧
    ∀ (w v : Word) (i j : Instruction), Instruction.decode w = .ok i →
      Instruction.decode v = .ok j → ∀ k : Fin 3,
        ((i.offset k).toInt < (j.offset k).toInt ↔ w.lane k < v.lane k) := by
  constructor
  · intro w k d hlow hhigh
    have hk : k.val < 4 := Nat.lt_succ_of_lt k.isLt
    obtain ⟨w', hsum, hlane, hother⟩ := w.exists_add_at_lane hk hlow hhigh
    have hflags : w'.lanes.flags = w.lanes.flags := hother 3 (Nat.ne_of_gt k.isLt)
    have hdecode := decode_eq_map_of_flags_eq hflags
    refine ⟨w', hsum, ?_, ?_⟩
    · intro e he
      rw [hdecode, he]
      rfl
    · intro i hi
      rw [hi] at hdecode
      refine ⟨_, hdecode, ?_, ?_, rfl⟩
      · rw [offset_of_decode hdecode, offset_of_decode hi, Offset.toInt_unbias,
          Offset.toInt_unbias, hlane]
        omega
      · intro j hj
        rw [offset_of_decode hdecode, offset_of_decode hi, hother j fun h => hj (Fin.ext h)]
  · intro w v i j hi hj k
    rw [offset_of_decode hi, offset_of_decode hj, Offset.unbias_lt_iff]

theorem decode_add_at_lane_no_carry :
    let w : Word := 0x0000_8000_7FFF_FFFF
    let i : Instruction :=
      { dst := .ap, op0 := .ap, op1 := .op0, res := .op1, pc := .regular, ap := .regular,
        fp := .regular, opcode := .nop, off0 := 32767, off1 := -1, off2 := 0 }
    0 ≤ ((w.lane 1).toNat : Int) + 1 ∧ ((w.lane 1).toNat : Int) + 1 ≤ 65535 ∧
    Instruction.decode w = .ok i ∧
    ∃ w' : Word, (w'.toNat : Int) = w.toNat + 1 * 2 ^ 16 ∧
      ∃ i', Instruction.decode w' = .ok i' ∧ (i'.offset 1).toInt = 0 ∧ i'.offset 0 = 32767 := by
  intro w i
  have hlow : 0 ≤ ((w.lane 1).toNat : Int) + 1 := by decide
  have hhigh : ((w.lane 1).toNat : Int) + 1 ≤ 65535 := by decide
  have hi : Instruction.decode w = .ok i := decode_eq_ok_iff_encode.2 ⟨by decide, by decide⟩
  obtain ⟨w', hsum, _, hdecode⟩ := decode_add_at_lane.1 w 1 1 hlow hhigh
  obtain ⟨i', hi', hmoved, hkept, _⟩ := hdecode i hi
  exact ⟨hlow, hhigh, hi, w', hsum, i', hi', hmoved, hkept 0 (by decide)⟩

end Instruction

end Wordcode
