/-!
# Bit ranges

A bit range is a run of neighbouring bits of a natural number. This module reads such a run as a
number of its own (`get`) and replaces it (`set`). Bit by bit, a read shifts the number down and
cuts it off (`testBit_get`), and a write changes the bits of the range and no other
(`testBit_set`); so what was written is read back (`get_set_self`), and a range apart from the
written one still reads the same (`get_set_of_apart`).
-/

namespace Wordcode

/-- The `width` bits from bit `lo` upwards; bit 0 is the least significant. -/
structure BitRange where
  lo : Nat
  width : Nat
deriving DecidableEq, Repr

namespace BitRange

/-- The least number that needs more bits than the range has. -/
def bound (r : BitRange) : Nat := 1 <<< r.width

/-- The number that the bits of the range spell. -/
def get (r : BitRange) (n : Nat) : Nat := n >>> r.lo % r.bound

/-- The number `n` with the bits of the range replaced by those of `v`, which has to fit. -/
def set (r : BitRange) (v n : Nat) : Nat :=
  (n >>> (r.lo + r.width) * r.bound + v) <<< r.lo + n % 1 <<< r.lo

/-- Two ranges are apart if one ends before the other starts. -/
def Apart (r s : BitRange) : Prop := r.lo + r.width ≤ s.lo ∨ s.lo + s.width ≤ r.lo

instance (r s : BitRange) : Decidable (r.Apart s) := by unfold Apart; infer_instance

/-- Bit `k` belongs to the range. -/
def Covers (r : BitRange) (k : Nat) : Prop := r.lo ≤ k ∧ k < r.lo + r.width

/-! ### Reading -/

theorem bound_pos (r : BitRange) : 0 < r.bound := by
  rw [bound, Nat.one_shiftLeft]
  exact Nat.two_pow_pos _

theorem get_lt (r : BitRange) (n : Nat) : r.get n < r.bound := Nat.mod_lt _ r.bound_pos

theorem testBit_get (r : BitRange) (n i : Nat) :
    (r.get n).testBit i = (decide (i < r.width) && n.testBit (r.lo + i)) := by
  rw [get, bound, Nat.one_shiftLeft, Nat.testBit_mod_two_pow, Nat.testBit_shiftRight]

/-! ### Writing -/

theorem testBit_eq_false_of_le {r : BitRange} {v i : Nat} (hv : v < r.bound) (hi : r.width ≤ i) :
    v.testBit i = false := by
  rw [bound, Nat.one_shiftLeft] at hv
  exact Nat.testBit_lt_two_pow (Nat.lt_of_lt_of_le hv (Nat.pow_le_pow_right (by decide) hi))

theorem testBit_set (r : BitRange) {v : Nat} (hv : v < r.bound) (n i : Nat) :
    (r.set v n).testBit i =
      if i < r.lo then n.testBit i
      else if i < r.lo + r.width then v.testBit (i - r.lo)
      else n.testBit i := by
  have hlow : n % 1 <<< r.lo < 1 <<< r.lo := by
    rw [Nat.one_shiftLeft]
    exact Nat.mod_lt _ (Nat.two_pow_pos _)
  rw [Nat.one_shiftLeft] at hlow
  rw [bound, Nat.one_shiftLeft] at hv
  rw [set, bound, Nat.one_shiftLeft, Nat.one_shiftLeft, Nat.shiftLeft_eq,
    Nat.mul_comm _ (_ ^ r.lo), Nat.testBit_two_pow_mul_add _ hlow,
    Nat.mul_comm _ (_ ^ r.width), Nat.testBit_two_pow_mul_add _ hv]
  by_cases h : i < r.lo
  · simp [h, Nat.testBit_mod_two_pow]
  · by_cases h' : i < r.lo + r.width
    · have hi : i - r.lo < r.width := by omega
      simp [h, h', hi]
    · have hi : ¬ i - r.lo < r.width := by omega
      have hsum : r.lo + r.width + (i - r.lo - r.width) = i := by omega
      simp [h, h', hi, Nat.testBit_shiftRight, hsum]

theorem get_set_self (r : BitRange) {v : Nat} (hv : v < r.bound) (n : Nat) :
    r.get (r.set v n) = v := by
  apply Nat.eq_of_testBit_eq
  intro i
  rw [testBit_get, testBit_set r hv]
  by_cases hi : i < r.width
  · have hlo : ¬ r.lo + i < r.lo := by omega
    simp [hi, hlo]
  · simp [hi, testBit_eq_false_of_le hv (Nat.le_of_not_lt hi)]

theorem get_set_of_apart {r s : BitRange} (h : r.Apart s) {v : Nat} (hv : v < s.bound)
    (n : Nat) : r.get (s.set v n) = r.get n := by
  apply Nat.eq_of_testBit_eq
  intro i
  rw [testBit_get, testBit_get, testBit_set s hv]
  by_cases hi : i < r.width
  · rcases h with h | h
    · have hlo : r.lo + i < s.lo := by omega
      simp [hi, hlo]
    · have hlo : ¬ r.lo + i < s.lo := by omega
      have hup : ¬ r.lo + i < s.lo + s.width := by omega
      simp [hi, hlo, hup]
  · simp [hi]

end BitRange

end Wordcode
