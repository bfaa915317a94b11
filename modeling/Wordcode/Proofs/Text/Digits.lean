import Mathlib.Data.Nat.Digits.Lemmas
import Wordcode.Text.Hexadecimal

/-!
# Numbers of hexadecimal digits

The number that a run of digits spells is the one of the positional system
(`value_eq_ofDigits`). How large it is shows in how many digits stand behind the leading zeros
(`value_lt_pow_iff`), and neither these zeros nor the case of the letters count for it.
-/

namespace Wordcode.Text.Hexadecimal

/-! ### Digits -/

theorem isDigit_iff {c : Char} :
    isDigit c = true ↔ 48 ≤ c.toNat ∧ c.toNat ≤ 57 ∨ 97 ≤ c.toNat ∧ c.toNat ≤ 102 ∨
      65 ≤ c.toNat ∧ c.toNat ≤ 70 := by
  simp only [isDigit, Bool.or_eq_true, Bool.and_eq_true, decide_eq_true_eq, or_assoc,
    Char.le_def, UInt32.le_iff_toNat_le]
  exact Iff.rfl

theorem digitValue_eq (c : Char) :
    digitValue c =
      if 48 ≤ c.toNat ∧ c.toNat ≤ 57 then c.toNat - 48
      else if 97 ≤ c.toNat ∧ c.toNat ≤ 102 then c.toNat - 97 + 10
      else if 65 ≤ c.toNat ∧ c.toNat ≤ 70 then c.toNat - 65 + 10
      else 0 := by
  simp only [digitValue, Char.le_def, UInt32.le_iff_toNat_le]
  rfl

theorem digitValue_lt (c : Char) : digitValue c < 16 := by
  rw [digitValue_eq]
  split_ifs <;> omega

theorem digitValue_pos {c : Char} (h : isDigit c = true) (hc : c ≠ '0') : 0 < digitValue c := by
  have hzero : c.toNat ≠ 48 := fun heq => hc (Char.toNat_inj.1 heq)
  have hcode := isDigit_iff.1 h
  rw [digitValue_eq]
  split_ifs <;> omega

theorem toNat_toUpper (c : Char) :
    c.toUpper.toNat = if 97 ≤ c.toNat ∧ c.toNat ≤ 122 then c.toNat - 32 else c.toNat := by
  have hletter : ('a'.val ≤ c.val ∧ c.val ≤ 'z'.val) ↔ 97 ≤ c.toNat ∧ c.toNat ≤ 122 := by
    rw [UInt32.le_iff_toNat_le, UInt32.le_iff_toNat_le]
    exact Iff.rfl
  unfold Char.toUpper
  split_ifs with hc hcode hcode
  · -- The distance between the cases is added as a negative number, which wraps around.
    have hdistance : ('A'.val - 'a'.val).toNat = 0x1_0000_0000 - 32 := by decide
    have htoNat : c.toNat = c.val.toNat := rfl
    have hupper : ∀ v h, (Char.mk v h).toNat = v.toNat := fun _ _ => rfl
    rw [hupper, UInt32.toNat_add, hdistance]
    omega
  · exact absurd (hletter.1 hc) hcode
  · exact absurd (hletter.2 hcode) hc
  · rfl

theorem isDigit_toUpper (c : Char) : isDigit c.toUpper = isDigit c := by
  rw [Bool.eq_iff_iff, isDigit_iff, isDigit_iff, toNat_toUpper]
  split_ifs <;> omega

theorem digitValue_toUpper (c : Char) : digitValue c.toUpper = digitValue c := by
  rw [digitValue_eq, digitValue_eq, toNat_toUpper]
  split_ifs <;> omega

/-! ### Numbers -/

theorem value_eq_ofDigits (s : List Char) :
    value s = Nat.ofDigits 16 (s.reverse.map digitValue) := by
  induction s using List.reverseRecOn with
  | nil => rfl
  | append_singleton s c ih =>
    rw [value_concat, ih, List.reverse_concat, List.map_cons, Nat.ofDigits_cons, Nat.add_comm]

theorem value_lt (s : List Char) : value s < 16 ^ s.length := by
  have hdigits : ∀ d ∈ s.reverse.map digitValue, d < 16 := by
    intro d hd
    obtain ⟨c, _, hc⟩ := List.mem_map.1 hd
    rw [← hc]
    exact digitValue_lt c
  have hlt := Nat.ofDigits_lt_base_pow_length (by decide) hdigits
  rw [List.length_map, List.length_reverse] at hlt
  rw [value_eq_ofDigits]
  exact hlt

theorem pow_length_le_value {c : Char} {s : List Char} (hdigit : isDigit c = true)
    (hc : c ≠ '0') : 16 ^ (c :: s).length ≤ 16 * value (c :: s) := by
  have hne : (c :: s).reverse.map digitValue ≠ [] := by simp
  have hlast : ((c :: s).reverse.map digitValue).getLast hne ≠ 0 := by
    have hpos := digitValue_pos hdigit hc
    simp only [List.reverse_cons, List.map_append, List.map_cons, List.map_nil,
      List.getLast_append_singleton]
    omega
  have hle := Nat.pow_length_le_mul_ofDigits (b := 14) hne hlast
  rw [List.length_map, List.length_reverse] at hle
  rw [value_eq_ofDigits]
  exact hle

/-- Whether a number has `n` digits at most shows in its digits behind the leading zeros. -/
theorem value_lt_pow_iff {s : List Char} (h : ∀ c ∈ s, isDigit c = true) (n : Nat) :
    value s < 16 ^ n ↔ (s.dropWhile (· == '0')).length ≤ n := by
  induction s with
  | nil => simp [value_nil]
  | cons c s ih =>
    by_cases hc : c = '0'
    · have hvalue : value ('0' :: s) = value s := rfl
      rw [hc, hvalue, List.dropWhile_cons_of_pos rfl]
      exact ih fun d hd => h d (List.mem_cons_of_mem _ hd)
    · rw [List.dropWhile_cons_of_neg (by simpa using hc)]
      refine ⟨?_, ?_⟩
      · intro hlt
        have hle := pow_length_le_value (s := s) (h c (List.mem_cons_self ..)) hc
        have hpow : 16 ^ (c :: s).length < 16 ^ (n + 1) := by
          rw [Nat.pow_succ]
          omega
        have hlength := (Nat.pow_lt_pow_iff_right (by decide)).1 hpow
        omega
      · intro hle
        exact (value_lt (c :: s)).trans_le (Nat.pow_le_pow_right (by decide) hle)

/-! ### What counts of the digits -/

/-- The digits behind the leading zeros, with all letters in one case. -/
def significant (digits : List Char) : List Char :=
  (digits.dropWhile (· == '0')).map Char.toUpper

theorem isDigit_significant (digits : List Char) :
    (∀ c ∈ significant digits, isDigit c = true) ↔ ∀ c ∈ digits, isDigit c = true := by
  induction digits with
  | nil => rfl
  | cons c digits ih =>
    by_cases hc : c = '0'
    · have hzero : isDigit '0' = true := by decide
      rw [hc, significant, List.dropWhile_cons_of_pos rfl, ← significant, ih,
        List.forall_mem_cons, and_iff_right hzero]
    · rw [significant, List.dropWhile_cons_of_neg (by simpa using hc), List.forall_mem_map]
      simp only [isDigit_toUpper]

theorem value_map_toUpper (s : List Char) : value (s.map Char.toUpper) = value s := by
  rw [value_eq_ofDigits, value_eq_ofDigits, ← List.map_reverse, List.map_map]
  exact congrArg _ (List.map_congr_left fun c _ => digitValue_toUpper c)

theorem value_dropWhile (s : List Char) : value (s.dropWhile (· == '0')) = value s := by
  induction s with
  | nil => rfl
  | cons c s ih =>
    by_cases hc : c = '0'
    · rw [hc, List.dropWhile_cons_of_pos rfl, ih]
      rfl
    · rw [List.dropWhile_cons_of_neg (by simpa using hc)]

theorem value_significant (digits : List Char) : value (significant digits) = value digits := by
  rw [significant, value_map_toUpper, value_dropWhile]

end Wordcode.Text.Hexadecimal
