/-!
# Hexadecimal digits

Numbers in base 16. Digits are read in either letter case and written in lower case with a fixed
count; writing cuts the number to that many digits, and reading gives the rest back
(`value_padded`).
-/

namespace Wordcode.Text.Hexadecimal

def isDigit (c : Char) : Bool :=
  ('0' ≤ c && c ≤ '9') || ('a' ≤ c && c ≤ 'f') || ('A' ≤ c && c ≤ 'F')

/-- The value of a digit, and 0 for a character that is none. -/
def digitValue (c : Char) : Nat :=
  if '0' ≤ c ∧ c ≤ '9' then c.toNat - '0'.toNat
  else if 'a' ≤ c ∧ c ≤ 'f' then c.toNat - 'a'.toNat + 10
  else if 'A' ≤ c ∧ c ≤ 'F' then c.toNat - 'A'.toNat + 10
  else 0

/-- The number that a run of digits spells, most significant digit first. -/
def value (s : List Char) : Nat := s.foldl (fun n c => 16 * n + digitValue c) 0

/-- The last `width` digits of `n`, with zeros in front if it has fewer. -/
def padded : (width : Nat) → (n : Nat) → List Char
  | 0, _ => []
  | width + 1, n => padded width (n / 16) ++ [Nat.digitChar (n % 16)]

/-! ### Values -/

theorem value_nil : value [] = 0 := rfl

theorem value_concat (s : List Char) (c : Char) :
    value (s ++ [c]) = 16 * value s + digitValue c := by
  simp [value]

/-! ### Written digits -/

theorem digitValue_digitChar {n : Nat} (h : n < 16) : digitValue (Nat.digitChar n) = n := by
  have hall : ∀ m ∈ List.range 16, digitValue (Nat.digitChar m) = m := by decide
  exact hall n (List.mem_range.2 h)

theorem isDigit_digitChar {n : Nat} (h : n < 16) : isDigit (Nat.digitChar n) = true := by
  have hall : ∀ m ∈ List.range 16, isDigit (Nat.digitChar m) = true := by decide
  exact hall n (List.mem_range.2 h)

theorem length_padded (width n : Nat) : (padded width n).length = width := by
  induction width generalizing n with
  | zero => rfl
  | succ width ih => simp [padded, ih]

theorem isDigit_of_mem_padded {width n : Nat} {c : Char} (h : c ∈ padded width n) :
    isDigit c = true := by
  induction width generalizing n with
  | zero => simp [padded] at h
  | succ width ih =>
    simp only [padded, List.mem_append, List.mem_singleton] at h
    rcases h with h | rfl
    · exact ih h
    · exact isDigit_digitChar (Nat.mod_lt _ (by decide))

theorem value_padded (width n : Nat) : value (padded width n) = n % 1 <<< (4 * width) := by
  induction width generalizing n with
  | zero => simp [padded, value_nil, Nat.mod_one]
  | succ width ih =>
    have hdigit : digitValue (Nat.digitChar (n % 16)) = n % 16 :=
      digitValue_digitChar (Nat.mod_lt _ (by decide))
    have hbound : 1 <<< (4 * (width + 1)) = 16 * 1 <<< (4 * width) := by
      rw [Nat.mul_add, Nat.shiftLeft_add, Nat.shiftLeft_eq _ (4 * 1), Nat.mul_comm]
    rw [padded, value_concat, ih, hdigit, hbound, Nat.mod_mul]
    omega

end Wordcode.Text.Hexadecimal
