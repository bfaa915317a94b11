import Wordcode.Proofs.Text.Digits
import Wordcode.Proofs.Word.Spelling

/-!
# Values of spellings

Which word a spelling stands for, and which texts are no spelling. The reader looks at the number
of all digits at once; putting the word together digit by digit, with a check that each step still
fits, comes to the same (`ofSpelling?_eq_ofDigits?`). Besides the digits only the place of the
letter of the base mark matters.
-/

namespace Wordcode.Word

open Text.Hexadecimal

/-! ### One digit after the other -/

/-- A word with one more digit behind it, if this is a digit and the number still fits. -/
def push? (w : Word) (c : Char) : Option Word :=
  if isDigit c ∧ 16 * w.toNat + digitValue c < UInt64.size then
    some (16 * w + UInt64.ofNat (digitValue c))
  else
    none

/-- The word of a run of digits, put together from left to right. -/
def ofDigits? (digits : List Char) : Option Word := digits.foldlM push? 0

theorem push?_eq_some_iff {w v : Word} {c : Char} :
    push? w c = some v ↔ isDigit c = true ∧ 16 * w.toNat + digitValue c = v.toNat := by
  have hv : v.toNat < UInt64.size := v.toNat_lt_size
  rw [push?]
  split
  · rename_i h
    obtain ⟨hc, hlt⟩ := h
    have hsum : (16 * w + UInt64.ofNat (digitValue c)).toNat = 16 * w.toNat + digitValue c := by
      have hbound : 16 * w.toNat + digitValue c < 0x1_0000_0000_0000_0000 := hlt
      have hlit : (16 : Word).toNat = 16 := rfl
      rw [UInt64.toNat_add, UInt64.toNat_mul, UInt64.toNat_ofNat', hlit]
      omega
    rw [Option.some.injEq, ← UInt64.toNat_inj, hsum, and_iff_right hc]
  · rename_i h
    refine ⟨?_, ?_⟩
    · intro hnone
      cases hnone
    · intro hsome
      exact absurd ⟨hsome.1, by omega⟩ h

theorem ofDigits?_concat (digits : List Char) (c : Char) :
    ofDigits? (digits ++ [c]) = (ofDigits? digits).bind fun w => push? w c := by
  rw [ofDigits?, List.foldlM_append]
  refine congrArg _ (funext fun w => ?_)
  exact List.foldlM_cons.trans (bind_pure _)

theorem ofDigits?_eq_some_iff {digits : List Char} {w : Word} :
    ofDigits? digits = some w ↔ (∀ c ∈ digits, isDigit c = true) ∧ value digits = w.toNat := by
  induction digits using List.reverseRecOn generalizing w with
  | nil =>
    have hzero : ofDigits? [] = some 0 := rfl
    rw [hzero, Option.some.injEq, ← UInt64.toNat_inj, and_iff_right (List.forall_mem_nil _)]
    exact Iff.rfl
  | append_singleton digits c ih =>
    have hw : w.toNat < UInt64.size := w.toNat_lt_size
    rw [ofDigits?_concat, Option.bind_eq_some_iff, value_concat, List.forall_mem_append,
      List.forall_mem_singleton]
    refine ⟨?_, ?_⟩
    · intro h
      obtain ⟨v, hv, hpush⟩ := h
      obtain ⟨hdigits, hvalue⟩ := ih.1 hv
      obtain ⟨hc, hsum⟩ := push?_eq_some_iff.1 hpush
      exact ⟨⟨hdigits, hc⟩, hvalue ▸ hsum⟩
    · intro h
      obtain ⟨⟨hdigits, hc⟩, hvalue⟩ := h
      -- The digits before the last one spell a smaller number, which fits all the more.
      have hfits : value digits < UInt64.size := by omega
      have hbefore : (UInt64.ofNat (value digits)).toNat = value digits := by
        rw [UInt64.toNat_ofNat', Nat.mod_eq_of_lt hfits]
      refine ⟨UInt64.ofNat (value digits), ih.2 ⟨hdigits, hbefore.symm⟩, ?_⟩
      rw [push?_eq_some_iff, hbefore]
      exact ⟨hc, hvalue⟩

theorem ofSpelling?_eq_ofDigits? (s : List Char) :
    ofSpelling? s = if digitsOf s = [] then none else ofDigits? (digitsOf s) := by
  refine Option.ext fun w => ?_
  split
  · rename_i hnil
    rw [ofSpelling?_eq_some_iff]
    refine ⟨fun h => absurd hnil h.1, fun h => ?_⟩
    cases h
  · rename_i hne
    rw [ofSpelling?_eq_some_iff, ofDigits?_eq_some_iff, and_iff_right hne]

theorem ofSpelling?_eq_of_significant {s t : List Char} (hs : digitsOf s ≠ [])
    (ht : digitsOf t ≠ []) (h : significant (digitsOf s) = significant (digitsOf t)) :
    ofSpelling? s = ofSpelling? t := by
  have hdigits : (∀ c ∈ digitsOf s, isDigit c = true) ↔ ∀ c ∈ digitsOf t, isDigit c = true := by
    rw [← isDigit_significant, h, isDigit_significant]
  have hvalue : value (digitsOf s) = value (digitsOf t) := by
    rw [← value_significant, h, value_significant]
  refine Option.ext fun w => ?_
  rw [ofSpelling?_eq_some_iff, ofSpelling?_eq_some_iff, hdigits, hvalue, and_iff_right hs,
    and_iff_right ht]

/-! ### Texts that spell no word -/

theorem ofSpelling?_eq_none_of_mem {s : List Char} {c : Char} (h : c ∈ dropBaseMark s)
    (hc : isDigit c = false) (hunder : c ≠ '_') : ofSpelling? s = none := by
  have hmem : c ∈ digitsOf s := List.mem_filter.2 ⟨h, bne_iff_ne.2 hunder⟩
  rw [Option.eq_none_iff_forall_not_mem]
  intro w hw
  have hdigit := (ofSpelling?_eq_some_iff.1 hw).2.1 c hmem
  rw [hc] at hdigit
  cases hdigit

theorem dropBaseMark_of_ne {c : Char} (hc : c ≠ '0') (s : List Char) :
    dropBaseMark (c :: s) = c :: s := by
  unfold dropBaseMark
  split
  · rename_i heq
    exact absurd (List.cons.inj heq).1 hc
  · rename_i heq
    exact absurd (List.cons.inj heq).1 hc
  · rfl

theorem mem_dropBaseMark_of_mem_drop {s : List Char} {c : Char} (h : c ∈ s.drop 2) :
    c ∈ dropBaseMark s := by
  unfold dropBaseMark
  split
  · exact h
  · exact h
  · exact List.mem_of_mem_drop h

theorem ofSpelling?_eq_none_of_sign {s : List Char} {c : Char} (hc : c = '+' ∨ c = '-')
    (h : c ∈ s) : ofSpelling? s = none := by
  have hnot : c ∉ ['0', 'x'] ∧ c ∉ ['0', 'X'] ∧ isDigit c = false ∧ c ≠ '_' := by
    rcases hc with hc | hc <;> rw [hc] <;> decide
  obtain ⟨hlower, hupper, hdigit, hunder⟩ := hnot
  obtain ⟨mark, hmark, hs⟩ := exists_mark s
  have hfree : c ∉ mark := by
    rcases hmark with hmark | hmark | hmark <;> rw [hmark]
    · exact List.not_mem_nil
    · exact hlower
    · exact hupper
  rw [hs, List.mem_append] at h
  exact ofSpelling?_eq_none_of_mem (h.resolve_left hfree) hdigit hunder

/-- The letter of a mark stands behind a single zero at the start or nowhere. -/
theorem ofSpelling?_eq_none_of_mark {before after : List Char} {c : Char}
    (hc : c = 'x' ∨ c = 'X') (hbefore : before ≠ ['0']) :
    ofSpelling? (before ++ c :: after) = none := by
  have hnot : c ≠ '0' ∧ isDigit c = false ∧ c ≠ '_' := by
    rcases hc with hc | hc <;> rw [hc] <;> decide
  obtain ⟨hzero, hdigit, hunder⟩ := hnot
  have hmem : c ∈ dropBaseMark (before ++ c :: after) := by
    cases before with
    | nil =>
      rw [List.nil_append, dropBaseMark_of_ne hzero]
      exact List.mem_cons_self ..
    | cons b before =>
      cases before with
      | nil =>
        have hb : b ≠ '0' := fun heq => hbefore (by rw [heq])
        rw [List.cons_append, dropBaseMark_of_ne hb]
        exact List.mem_cons_of_mem _ (List.mem_cons_self ..)
      | cons b' before =>
        apply mem_dropBaseMark_of_mem_drop
        exact List.mem_append_right _ (List.mem_cons_self ..)
  exact ofSpelling?_eq_none_of_mem hmem hdigit hunder

theorem ofSpelling?_eq_none_of_no_digit {s : List Char}
    (h : ∀ c ∈ dropBaseMark s, isDigit c = false) : ofSpelling? s = none := by
  rw [Option.eq_none_iff_forall_not_mem]
  intro w hw
  obtain ⟨hne, hdigits, _⟩ := ofSpelling?_eq_some_iff.1 hw
  obtain ⟨c, hc⟩ := List.exists_mem_of_ne_nil _ hne
  have hdigit := hdigits c hc
  rw [h c (List.mem_filter.1 hc).1] at hdigit
  cases hdigit

/-! ### Values -/

/-- Reading a spelling gives the number of its digits in the positional system, if there are any
and they fit a word; it does so digit by digit without ever wrapping around. Digits fit if no
more than sixteen of them stand behind the leading zeros, and what these zeros, underscores,
letter case and the mark leave alone decides the outcome. A sign, the letter of a mark out of its
place, and a text without a digit are refused. -/
theorem ofSpelling?_computes_value :
    (∀ s w, ofSpelling? s = some w ↔
      digitsOf s ≠ [] ∧ (∀ c ∈ digitsOf s, isDigit c = true) ∧
        value (digitsOf s) < UInt64.size ∧ w.toNat = value (digitsOf s)) ∧
    (∀ s, ofSpelling? s = if digitsOf s = [] then none else ofDigits? (digitsOf s)) ∧
    (∀ digits, value digits = Nat.ofDigits 16 (digits.reverse.map digitValue)) ∧
    (∀ digits : List Char, (∀ c ∈ digits, isDigit c = true) →
      (value digits < UInt64.size ↔ (digits.dropWhile (· == '0')).length ≤ 16)) ∧
    (∀ s t, digitsOf s ≠ [] → digitsOf t ≠ [] →
      significant (digitsOf s) = significant (digitsOf t) → ofSpelling? s = ofSpelling? t) ∧
    (∀ s c, (c = '+' ∨ c = '-') → c ∈ s → ofSpelling? s = none) ∧
    (∀ before c after, (c = 'x' ∨ c = 'X') → before ≠ ['0'] →
      ofSpelling? (before ++ c :: after) = none) ∧
    (∀ s, (∀ c ∈ dropBaseMark s, isDigit c = false) → ofSpelling? s = none) := by
  refine ⟨?_, ofSpelling?_eq_ofDigits?, value_eq_ofDigits, ?_, ?_, ?_, ?_, ?_⟩
  · intro s w
    have hw : w.toNat < UInt64.size := w.toNat_lt_size
    rw [ofSpelling?_eq_some_iff]
    refine and_congr_right fun _ => and_congr_right fun _ => ⟨?_, ?_⟩
    · intro h
      exact ⟨h ▸ hw, h.symm⟩
    · intro h
      exact h.2.symm
  · intro digits hdigits
    exact value_lt_pow_iff hdigits 16
  · exact fun _ _ => ofSpelling?_eq_of_significant
  · exact fun _ _ => ofSpelling?_eq_none_of_sign
  · exact fun _ _ _ => ofSpelling?_eq_none_of_mark
  · exact fun _ => ofSpelling?_eq_none_of_no_digit

theorem ofSpelling?_computes_value_at_edges :
    ofSpelling? "0xffff_ffff_FFFF_FFFF".toList = some 0xFFFF_FFFF_FFFF_FFFF ∧
    ((∀ c ∈ "010000000000000000".toList, isDigit c = true) ∧
      ¬ value "010000000000000000".toList < UInt64.size) ∧
    (significant (digitsOf "0X_00fF".toList) = significant (digitsOf "ff".toList) ∧
      ofSpelling? "0X_00fF".toList = ofSpelling? "ff".toList) ∧
    ('+' ∈ "0x+1".toList ∧ ofSpelling? "0x+1".toList = none) ∧
    ("0x0".toList ≠ ['0'] ∧ ofSpelling? ("0x0".toList ++ 'x' :: "1".toList) = none) ∧
    ((∀ c ∈ dropBaseMark "0X__".toList, isDigit c = false) ∧
      ofSpelling? "0X__".toList = none) := by
  obtain ⟨hvalue, _, _, hfits, hsame, hsign, hmark, hnone⟩ := ofSpelling?_computes_value
  have hdigits : ∀ c ∈ "010000000000000000".toList, isDigit c = true :=
    List.all_eq_true.1 (by decide)
  have hsignificant :
      significant (digitsOf "0X_00fF".toList) = significant (digitsOf "ff".toList) := by decide
  have hempty : ∀ c ∈ dropBaseMark "0X__".toList, isDigit c = false :=
    fun c hc => Bool.eq_false_iff.2 (List.any_eq_false.1 (by decide) c hc)
  refine ⟨(hvalue _ _).2 ⟨by decide, List.all_eq_true.1 (by decide), by decide, by decide⟩,
    ⟨hdigits, ?_⟩, ⟨hsignificant, hsame _ _ (by decide) (by decide) hsignificant⟩,
    ⟨by decide, hsign _ '+' (Or.inl rfl) (by decide)⟩,
    ⟨by decide, hmark _ 'x' _ (Or.inl rfl) (by decide)⟩, ⟨hempty, hnone _ hempty⟩⟩
  rw [hfits _ hdigits]
  decide

end Wordcode.Word
