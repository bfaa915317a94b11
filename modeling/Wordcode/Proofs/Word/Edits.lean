import Wordcode.Proofs.Word.Fields

/-!
# Writing into a word

A range of bits of a word is written without a change to any other bit (`testBit_write`), so that
what was written is read back and ranges apart from it read as before; the code of a flag field
and the number in a lane are written so. An amount may also be added to a range in place: as long
as the sum fits the range, nothing is carried out of it (`set_add_get`).
-/

namespace Wordcode

/-! ### Ranges of bits -/

namespace BitRange

theorem set_lt_size {r : BitRange} (hr : r.lo + r.width ≤ 64) {v : Nat} (hv : v < r.bound)
    (w : Word) : r.set v w.toNat < UInt64.size := by
  have hbits : ∀ i, 64 ≤ i → (r.set v w.toNat).testBit i = false := by
    intro i hi
    have hlo : ¬ i < r.lo := by omega
    have hup : ¬ i < r.lo + r.width := by omega
    have hpow : 2 ^ 64 ≤ 2 ^ i := Nat.pow_le_pow_right (by decide) hi
    rw [testBit_set r hv, if_neg hlo, if_neg hup]
    exact Nat.testBit_lt_two_pow (Nat.lt_of_lt_of_le w.toNat_lt_size hpow)
  exact Nat.lt_pow_two_of_testBit _ hbits

/-- A write adds what the new number has more than the one before, at the place of the range. -/
theorem set_add_get (r : BitRange) (v n : Nat) :
    r.set v n + r.get n * 1 <<< r.lo = n + v * 1 <<< r.lo := by
  -- The number is cut in three, at the lower end of the range and at its upper end.
  have hhigh := Nat.div_add_mod' (n >>> r.lo) r.bound
  have hlow := Nat.div_add_mod' n (1 <<< r.lo)
  have hlo : n / 1 <<< r.lo = n >>> r.lo := by
    rw [Nat.one_shiftLeft, Nat.shiftRight_eq_div_pow]
  have hup : n >>> (r.lo + r.width) = n >>> r.lo / r.bound := by
    rw [Nat.shiftRight_add, bound, Nat.one_shiftLeft, Nat.shiftRight_eq_div_pow _ r.width]
  have hshift (x : Nat) : x <<< r.lo = x * 1 <<< r.lo := by
    rw [Nat.shiftLeft_eq, Nat.one_shiftLeft]
  have hsum := congrArg (· * 1 <<< r.lo) hhigh
  rw [hlo] at hlow
  rw [set, get, hup, hshift, Nat.add_mul]
  simp only [Nat.add_mul] at hsum
  omega

end BitRange

/-! ### Writes -/

namespace Word

/-- The word with the bits of a range replaced by those of `v`. -/
def write (w : Word) (r : BitRange) (v : Nat) : Word := UInt64.ofNat (r.set v w.toNat)

section Write

variable {r : BitRange} (hr : r.lo + r.width ≤ 64) {v : Nat} (hv : v < r.bound) (w : Word)
include hr hv

theorem toNat_write : (w.write r v).toNat = r.set v w.toNat := by
  rw [write, UInt64.toNat_ofNat']
  exact Nat.mod_eq_of_lt (BitRange.set_lt_size hr hv w)

theorem testBit_write (k : Nat) :
    (w.write r v).toNat.testBit k =
      if r.lo ≤ k ∧ k < r.lo + r.width then v.testBit (k - r.lo) else w.toNat.testBit k := by
  rw [toNat_write hr hv, BitRange.testBit_set r hv]
  by_cases hlo : k < r.lo
  · have hout : ¬ (r.lo ≤ k ∧ k < r.lo + r.width) := by omega
    rw [if_pos hlo, if_neg hout]
  · by_cases hup : k < r.lo + r.width
    · rw [if_neg hlo, if_pos hup, if_pos ⟨Nat.le_of_not_lt hlo, hup⟩]
    · have hout : ¬ (r.lo ≤ k ∧ k < r.lo + r.width) := by omega
      rw [if_neg hlo, if_neg hup, if_neg hout]

theorem get_write_self : r.get (w.write r v).toNat = v := by
  rw [toNat_write hr hv, BitRange.get_set_self r hv]

theorem get_write_of_apart {s : BitRange} (h : s.Apart r) :
    s.get (w.write r v).toNat = s.get w.toNat := by
  rw [toNat_write hr hv, BitRange.get_set_of_apart h hv]

end Write

end Word

/-! ### Codes of flag fields -/

namespace FlagField

theorem wordRange_le (f : FlagField) : f.wordRange.lo + f.wordRange.width ≤ 64 := by
  cases f <;> decide

theorem wordRange_apart_lane (f : FlagField) {k : Nat} (hk : k < 3) :
    (Word.laneRange k).Apart f.wordRange := by
  left
  have hlo : 48 ≤ f.wordRange.lo := Nat.le_add_right 48 f.range.lo
  simp only [Word.laneRange]
  omega

theorem toNat_lt_of_mem_legalCodes {f : FlagField} {code : UInt8} (h : code ∈ f.legalCodes) :
    code.toNat < f.wordRange.bound := by
  have hall : (f.legalCodes.all fun c => decide (c.toNat < f.wordRange.bound)) = true := by
    cases f <;> decide
  exact of_decide_eq_true (List.all_eq_true.1 hall code h)

end FlagField

namespace Word

variable (w : Word) {f : FlagField} {code : UInt8} (h : code.toNat < f.wordRange.bound)
include h

theorem code_withCode_self : (w.withCode f code).code f = code := by
  apply UInt8.toNat_inj.1
  rw [toNat_code]
  exact get_write_self f.wordRange_le h w

theorem code_withCode_of_ne {g : FlagField} (hne : g ≠ f) :
    (w.withCode f code).code g = w.code g := by
  apply UInt8.toNat_inj.1
  rw [toNat_code, toNat_code]
  exact get_write_of_apart f.wordRange_le h w (FlagField.wordRange_apart hne)

theorem highBit_withCode : (w.withCode f code).highBit = w.highBit := by
  have hapart : highBitRange.Apart f.wordRange := f.wordRange_apart_highBit.symm
  have hget := get_write_of_apart f.wordRange_le h w hapart
  rw [highBit, highBit]
  exact congrArg (· != 0) hget

theorem lane_withCode {k : Nat} (hk : k < 3) : (w.withCode f code).lane k = w.lane k :=
  congrArg UInt16.ofNat (get_write_of_apart f.wordRange_le h w (f.wordRange_apart_lane hk))

end Word

/-! ### Lanes -/

namespace Word

theorem laneRange_le {k : Nat} (hk : k < 4) : (laneRange k).lo + (laneRange k).width ≤ 64 := by
  simp only [laneRange]
  omega

theorem laneRange_apart {j k : Nat} (h : j ≠ k) : (laneRange j).Apart (laneRange k) := by
  simp only [BitRange.Apart, laneRange]
  omega

theorem toNat_lt_bound_laneRange (raw : UInt16) (k : Nat) :
    raw.toNat < (laneRange k).bound := raw.toNat_lt

theorem toNat_lane_eq_get (w : Word) (k : Nat) :
    (w.lane k).toNat = (laneRange k).get w.toNat := toNat_lane w k

variable (w : Word) {k : Nat} (hk : k < 4) (raw : UInt16)
include hk

theorem lane_write_self : (w.write (laneRange k) raw.toNat).lane k = raw := by
  apply UInt16.toNat_inj.1
  rw [toNat_lane_eq_get]
  exact get_write_self (laneRange_le hk) (toNat_lt_bound_laneRange raw k) w

theorem lane_write_of_ne {j : Nat} (h : j ≠ k) :
    (w.write (laneRange k) raw.toNat).lane j = w.lane j := by
  apply UInt16.toNat_inj.1
  rw [toNat_lane_eq_get, toNat_lane_eq_get]
  exact get_write_of_apart (laneRange_le hk) (toNat_lt_bound_laneRange raw k) w (laneRange_apart h)

/-- A new number in a lane changes the word by the difference, moved up to the lane. -/
theorem toNat_write_lane :
    (w.write (laneRange k) raw.toNat).toNat + (w.lane k).toNat * 1 <<< (16 * k) =
      w.toNat + raw.toNat * 1 <<< (16 * k) := by
  rw [toNat_write (laneRange_le hk) (toNat_lt_bound_laneRange raw k), toNat_lane_eq_get]
  exact BitRange.set_add_get (laneRange k) raw.toNat w.toNat

end Word

end Wordcode
