import Mathlib.Data.List.Basic
import Mathlib.Data.Nat.Bitwise
import Mathlib.Logic.ExistsUnique
import Wordcode.Proofs.Word.Edits
import Wordcode.Word.Mask

/-!
# The tiling of a word

The lanes of the offsets, the fields of the flag block and the high bit lie one behind the other
and fill a word: each of its bits belongs to exactly one of them. So a word is the sum of what is
read there, each number moved up to its place (`toNat_eq_placed`), and any numbers that fit are
those of exactly one word (`existsUnique_word_iff`). Masks, shifts and narrowing read the same
numbers (`BitRange.and_mask_shiftRight`, `maskedLane_eq`).
-/

namespace Wordcode

/-! ### Ranges in a row -/

namespace BitRange

/-- The ranges lie one behind the other, from bit `lo` up to bit `hi`. -/
def Tile : (lo : Nat) → List BitRange → (hi : Nat) → Prop
  | lo, [], hi => lo = hi
  | lo, r :: ranges, hi => r.lo = lo ∧ Tile (lo + r.width) ranges hi

/-- The sum of a number for each range, moved up to where the range starts. -/
def placed (value : BitRange → Nat) : List BitRange → Nat
  | [] => 0
  | r :: ranges => value r * 1 <<< r.lo + placed value ranges

theorem get_add_low (r : BitRange) (n : Nat) :
    r.get n * 1 <<< r.lo + n % 1 <<< r.lo = n % 1 <<< (r.lo + r.width) := by
  have hup : 1 <<< (r.lo + r.width) = 1 <<< r.lo * r.bound := by
    rw [bound, Nat.one_shiftLeft, Nat.one_shiftLeft, Nat.one_shiftLeft, Nat.pow_add]
  have hdown : n >>> r.lo = n / 1 <<< r.lo := by
    rw [Nat.one_shiftLeft, Nat.shiftRight_eq_div_pow]
  rw [hup, Nat.mod_mul, get, hdown, Nat.mul_comm, Nat.add_comm]

theorem placed_congr {value value' : BitRange → Nat} {ranges : List BitRange}
    (h : ∀ r ∈ ranges, value r = value' r) :
    placed value ranges = placed value' ranges := by
  induction ranges with
  | nil => rfl
  | cons r ranges ih =>
    obtain ⟨hfirst, hrest⟩ := List.forall_mem_cons.1 h
    rw [placed, placed, hfirst, ih hrest]

/-- The numbers in ranges that lie in a row make up the bits from the first to the last. -/
theorem Tile.placed_get {ranges : List BitRange} {lo hi : Nat} (h : Tile lo ranges hi) (n : Nat) :
    placed (fun r => r.get n) ranges + n % 1 <<< lo = n % 1 <<< hi := by
  induction ranges generalizing lo with
  | nil =>
    have hlo : lo = hi := h
    rw [placed, hlo, Nat.zero_add]
  | cons r ranges ih =>
    obtain ⟨hlo, hrest⟩ := h
    have hfirst := r.get_add_low n
    have hothers := ih hrest
    rw [← hlo] at hothers ⊢
    rw [placed]
    omega

theorem Tile.le {ranges : List BitRange} {lo hi : Nat} (h : Tile lo ranges hi) : lo ≤ hi := by
  induction ranges generalizing lo with
  | nil => exact Nat.le_of_eq h
  | cons r ranges ih => exact Nat.le_trans (Nat.le_add_right lo r.width) (ih h.2)

theorem Tile.exists_covers_iff {ranges : List BitRange} {lo hi : Nat} (h : Tile lo ranges hi)
    (k : Nat) : (∃ r ∈ ranges, r.Covers k) ↔ lo ≤ k ∧ k < hi := by
  induction ranges generalizing lo with
  | nil =>
    have hlo : lo = hi := h
    rw [hlo]
    refine iff_of_false ?_ (by omega)
    rintro ⟨r, hr, _⟩
    cases hr
  | cons r ranges ih =>
    obtain ⟨hlo, hrest⟩ := h
    have hle := hrest.le
    rw [List.exists_mem_cons_iff, ih hrest, Covers, hlo]
    omega

theorem Apart.not_covers {r s : BitRange} (h : r.Apart s) {k : Nat} (hk : r.Covers k) :
    ¬ s.Covers k := by
  intro hs
  obtain ⟨hr1, hr2⟩ := hk
  obtain ⟨hs1, hs2⟩ := hs
  rcases h with h | h <;> omega

end BitRange

/-! ### Parts of a word -/

namespace Word

/-- What a word is cut into. -/
inductive Part where
  | offset (k : Fin 3)
  | field (f : FlagField)
  | high
deriving DecidableEq

namespace Part

def range : Part → BitRange
  | offset k => laneRange k
  | field f => f.wordRange
  | high => highBitRange

/-- The number that a word has in the part. -/
def read (w : Word) : Part → Nat
  | offset k => (w.lane k).toNat
  | field f => (w.code f).toNat
  | high => w.highBit.toNat

instance : Closed Part :=
  ⟨[offset 0, offset 1, offset 2, field .dstReg, field .op0Reg, field .op1Src, field .resLogic,
     field .pcUpdate, field .apUpdate, field .opcode, high],
   by
    intro p
    cases p with
    | offset k => revert k; decide
    | field f => cases f <;> decide
    | high => decide⟩

/-- The ranges of all parts, from the lowest upwards. -/
def ranges : List BitRange := Closed.members.map range

theorem tile_ranges : BitRange.Tile 0 ranges 64 := by
  simp only [ranges, Closed.members, List.map_cons, List.map_nil, BitRange.Tile]
  decide

theorem range_mem_ranges (p : Part) : p.range ∈ ranges :=
  List.mem_map_of_mem (Closed.mem_members p)

theorem range_apart {p q : Part} (h : p ≠ q) : p.range.Apart q.range := by
  cases p with
  | offset k =>
    cases q with
    | offset l =>
      have hne : k.val ≠ l.val := fun heq => h (congrArg offset (Fin.ext heq))
      exact laneRange_apart hne
    | field f => exact f.wordRange_apart_lane k.isLt
    | high => revert k; decide
  | field f =>
    cases q with
    | offset l => exact (f.wordRange_apart_lane l.isLt).symm
    | field g => exact FlagField.wordRange_apart fun heq => h (congrArg field heq)
    | high => exact f.wordRange_apart_highBit
  | high =>
    cases q with
    | offset l => revert l; decide
    | field g => exact g.wordRange_apart_highBit.symm
    | high => exact absurd rfl h

theorem range_le (p : Part) : p.range.lo + p.range.width ≤ 64 := by
  cases p with
  | offset k => revert k; decide
  | field f => exact f.wordRange_le
  | high => decide

/-- Nothing is lost on the way from the bits of a part to the number that is read. -/
theorem read_eq_get (w : Word) (p : Part) : p.read w = p.range.get w.toNat := by
  cases p with
  | offset k => exact toNat_lane_eq_get w k
  | field f => exact toNat_code w f
  | high =>
    have hlt : highBitRange.get w.toNat < 2 := highBitRange.get_lt w.toNat
    have hbit : highBitRange.get w.toNat = 0 ∨ highBitRange.get w.toNat = 1 := by omega
    rw [read, highBit, range]
    rcases hbit with hbit | hbit <;> rw [hbit] <;> rfl

theorem existsUnique_covers_iff (k : Nat) : (∃! p : Part, p.range.Covers k) ↔ k < 64 := by
  have htile := tile_ranges.exists_covers_iff k
  rw [and_iff_right (Nat.zero_le k)] at htile
  rw [← htile]
  refine ⟨fun h => ?_, fun h => ?_⟩
  · obtain ⟨p, hp, _⟩ := h
    exact ⟨p.range, p.range_mem_ranges, hp⟩
  · obtain ⟨r, hr, hk⟩ := h
    obtain ⟨p, _, hp⟩ := List.mem_map.1 hr
    rw [← hp] at hk
    refine ⟨p, hk, fun q hq => ?_⟩
    by_contra hne
    exact (range_apart hne).not_covers hq hk

end Part

/-! ### Words and the numbers in their parts -/

theorem toNat_eq_placed (w : Word) :
    w.toNat = BitRange.placed (fun r => r.get w.toNat) Part.ranges := by
  have hw : w.toNat < 1 <<< 64 := w.toNat_lt_size
  have htile := Part.tile_ranges.placed_get w.toNat
  rw [Nat.shiftLeft_zero, Nat.mod_one, Nat.add_zero, Nat.mod_eq_of_lt hw] at htile
  exact htile.symm

theorem eq_of_read_eq {w w' : Word} (h : ∀ p : Part, p.read w = p.read w') : w = w' := by
  apply UInt64.toNat_inj.1
  rw [toNat_eq_placed w, toNat_eq_placed w']
  refine BitRange.placed_congr fun r hr => ?_
  obtain ⟨p, _, hp⟩ := List.mem_map.1 hr
  rw [← hp, ← p.read_eq_get, ← p.read_eq_get]
  exact h p

/-- The word with the given numbers written into some of its parts, one after the other. -/
def writeAll (value : Part → Nat) (parts : List Part) (w : Word) : Word :=
  parts.foldl (fun w p => w.write p.range (value p)) w

theorem read_write_self {value : Part → Nat} (hfits : ∀ p, value p < p.range.bound) (w : Word)
    (p : Part) : p.read (w.write p.range (value p)) = value p := by
  rw [p.read_eq_get]
  exact get_write_self p.range_le (hfits p) w

theorem read_write_of_ne {value : Part → Nat} (hfits : ∀ p, value p < p.range.bound) (w : Word)
    {p q : Part} (h : p ≠ q) : p.read (w.write q.range (value q)) = p.read w := by
  rw [p.read_eq_get, p.read_eq_get]
  exact get_write_of_apart q.range_le (hfits q) w (Part.range_apart h)

theorem read_writeAll {value : Part → Nat} (hfits : ∀ p, value p < p.range.bound)
    (parts : List Part) (w : Word) (p : Part) :
    p.read (w.writeAll value parts) = if p ∈ parts then value p else p.read w := by
  induction parts generalizing w with
  | nil => rfl
  | cons q parts ih =>
    have hfirst : w.writeAll value (q :: parts) =
        (w.write q.range (value q)).writeAll value parts := rfl
    rw [hfirst, ih]
    by_cases hmem : p ∈ parts
    · rw [if_pos hmem, if_pos (List.mem_cons_of_mem q hmem)]
    · rw [if_neg hmem]
      by_cases hpq : p = q
      · rw [hpq, read_write_self hfits, if_pos (List.mem_cons_self ..)]
      · have hout : p ∉ q :: parts := fun h => (List.mem_cons.1 h).elim hpq hmem
        rw [read_write_of_ne hfits w hpq, if_neg hout]

theorem existsUnique_word_iff (value : Part → Nat) :
    (∃! w : Word, ∀ p : Part, p.read w = value p) ↔ ∀ p : Part, value p < p.range.bound := by
  refine ⟨fun h p => ?_, fun hfits => ?_⟩
  · obtain ⟨w, hw, _⟩ := h
    rw [← hw p, p.read_eq_get]
    exact p.range.get_lt _
  · refine ⟨writeAll value Closed.members 0, fun p => ?_, fun w hw => eq_of_read_eq fun p => ?_⟩
    · rw [read_writeAll hfits, if_pos (Closed.mem_members p)]
    · rw [hw p, read_writeAll hfits, if_pos (Closed.mem_members p)]

example : Part.ranges.map BitRange.bound =
    [0x1_0000, 0x1_0000, 0x1_0000, 2, 2, 8, 4, 8, 4, 8, 2] := rfl

end Word

/-! ### Masks and shifts -/

namespace BitRange

theorem and_mask_shiftRight (r : BitRange) (n : Nat) : (n &&& r.mask) >>> r.lo = r.get n := by
  rw [mask, Nat.shiftRight_and_distrib, Nat.shiftLeft_shiftRight, get, bound, Nat.one_shiftLeft,
    Nat.and_two_pow_sub_one_eq_mod]

end BitRange

theorem FlagField.maskedRead_eq (f : FlagField) (flags : UInt16) :
    f.maskedRead flags = f.read flags := by
  have hmask : f.mask.toNat = f.range.mask := by cases f <;> rfl
  have hshift : f.shift.toNat % 16 = f.range.lo := by cases f <;> rfl
  apply UInt8.toNat_inj.1
  rw [maskedRead, UInt16.toNat_toUInt8, UInt16.toNat_shiftRight, UInt16.toNat_and, hmask, hshift,
    BitRange.and_mask_shiftRight, ← toNat_read]
  exact Nat.mod_eq_of_lt (f.read flags).toNat_lt

namespace Word

theorem maskedLane_eq (w : Word) {k : Nat} (hk : k < 4) :
    w.maskedLane (UInt64.ofNat (16 * k)) = w.lane k := by
  have hshift : (UInt64.ofNat (16 * k)).toNat % 64 = 16 * k := by
    rw [UInt64.toNat_ofNat']
    omega
  have hmask : laneMask.toNat = 2 ^ 16 - 1 := rfl
  apply UInt16.toNat_inj.1
  rw [maskedLane, UInt64.toNat_toUInt16, UInt64.toNat_and, UInt64.toNat_shiftRight, hshift, hmask,
    Nat.and_two_pow_sub_one_eq_mod, Nat.mod_mod, toNat_lane]

theorem maskedLanes_eq (w : Word) : w.maskedLanes = w.lanes := by
  rw [maskedLanes, lanes, ← w.maskedLane_eq (k := 0) (by decide),
    ← w.maskedLane_eq (k := 1) (by decide), ← w.maskedLane_eq (k := 2) (by decide),
    ← w.maskedLane_eq (k := 3) (by decide)]
  rfl

theorem highBit_iff_masked (w : Word) : w.highBit = true ↔ w &&& highBitMask ≠ 0 := by
  have hand : (w &&& highBitMask).toNat = (w.toNat.testBit 63).toNat * 2 ^ 63 := by
    rw [UInt64.toNat_and, ← Nat.and_two_pow]
    rfl
  rw [highBit_eq_testBit, ne_eq, ← UInt64.toNat_inj, hand]
  cases w.toNat.testBit 63 <;> decide

/-! ### Tiling -/

theorem toNat_eq_sum (w : Word) :
    w.toNat = w.lanes.off0.toNat + 0x1_0000 * w.lanes.off1.toNat
      + 0x1_0000_0000 * w.lanes.off2.toNat
      + 0x1_0000_0000_0000 *
        ((w.code .dstReg).toNat + 2 * (w.code .op0Reg).toNat + 4 * (w.code .op1Src).toNat
          + 32 * (w.code .resLogic).toNat + 128 * (w.code .pcUpdate).toNat
          + 1024 * (w.code .apUpdate).toNat + 4096 * (w.code .opcode).toNat)
      + 0x8000_0000_0000_0000 * w.highBit.toNat := by
  have hplaced := w.toNat_eq_placed
  simp only [Part.ranges, Closed.members, List.map_cons, List.map_nil, BitRange.placed,
    ← Part.read_eq_get] at hplaced
  simp only [Part.read, Part.range, laneRange, FlagField.wordRange, FlagField.range, highBitRange,
    Fin.isValue, Fin.val_zero, Fin.val_one, Fin.val_two, Nat.reduceMul, Nat.reduceAdd,
    Nat.reduceShiftLeft] at hplaced
  simp only [lanes]
  omega

theorem code_lt (w : Word) (f : FlagField) : (w.code f).toNat < f.range.bound :=
  f.read_lt w.lanes.flags

/-- The lanes of the offsets, the fields of the flag block and the bit that the mask of the high
bit tests tile a word. It is the sum of the numbers in them, whether it stands for an instruction
or not; any numbers that fit their parts are those of one word only; each bit is in one part only,
and none is lost when a part is read. By masks, shifts and narrowing the same is read. -/
theorem parts_tile_word :
    (∀ w : Word,
      w.toNat = w.lanes.off0.toNat + 0x1_0000 * w.lanes.off1.toNat
        + 0x1_0000_0000 * w.lanes.off2.toNat
        + 0x1_0000_0000_0000 *
          ((w.code .dstReg).toNat + 2 * (w.code .op0Reg).toNat + 4 * (w.code .op1Src).toNat
            + 32 * (w.code .resLogic).toNat + 128 * (w.code .pcUpdate).toNat
            + 1024 * (w.code .apUpdate).toNat + 4096 * (w.code .opcode).toNat)
        + 0x8000_0000_0000_0000 * (if w &&& highBitMask ≠ 0 then 1 else 0)) ∧
    (∀ w : Word,
      (w.code .dstReg).toNat < 2 ∧ (w.code .op0Reg).toNat < 2 ∧ (w.code .op1Src).toNat < 8 ∧
      (w.code .resLogic).toNat < 4 ∧ (w.code .pcUpdate).toNat < 8 ∧
      (w.code .apUpdate).toNat < 4 ∧ (w.code .opcode).toNat < 8) ∧
    (∀ value : Part → Nat,
      (∃! w : Word, ∀ p : Part, p.read w = value p) ↔ ∀ p : Part, value p < p.range.bound) ∧
    (∀ k, (∃! p : Part, p.range.Covers k) ↔ k < 64) ∧
    (∀ (w : Word) (p : Part), p.read w = p.range.get w.toNat) ∧
    (∀ w : Word, w.maskedLanes = w.lanes ∧ (w.highBit = true ↔ w &&& highBitMask ≠ 0)) ∧
    ∀ (f : FlagField) (flags : UInt16), f.maskedRead flags = f.read flags := by
  refine ⟨fun w => ?_, fun w => ?_, existsUnique_word_iff, Part.existsUnique_covers_iff,
    Part.read_eq_get, fun w => ⟨w.maskedLanes_eq, w.highBit_iff_masked⟩, FlagField.maskedRead_eq⟩
  · have hhigh : (if w &&& highBitMask ≠ 0 then 1 else 0) = w.highBit.toNat := by
      rw [← if_congr w.highBit_iff_masked rfl rfl]
      cases w.highBit <;> rfl
    rw [hhigh]
    exact w.toNat_eq_sum
  · exact ⟨w.code_lt .dstReg, w.code_lt .op0Reg, w.code_lt .op1Src, w.code_lt .resLogic,
      w.code_lt .pcUpdate, w.code_lt .apUpdate, w.code_lt .opcode⟩

end Word

end Wordcode
