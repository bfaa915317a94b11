import Wordcode.Word.FlagField

/-!
# Words from their parts

The inverse of cutting a word up: a word is put together from four lanes, and a flag block from
the codes of its fields. Main statements: cutting and putting together lanes are inverse to each
other (`toWord_lanes`, `lanes_toWord`), and every field of a flag block reads the code that was
put there (`read_assemble`).
-/

namespace Wordcode

/-! ### Lanes -/

/-- The word that has the given lanes. -/
def Lanes.toWord (l : Lanes) : Word :=
  UInt64.ofNat (l.off0.toNat + 0x1_0000 * l.off1.toNat + 0x1_0000_0000 * l.off2.toNat
    + 0x1_0000_0000_0000 * l.flags.toNat)

theorem Word.toNat_lane (w : Word) (k : Nat) :
    (w.lane k).toNat = w.toNat >>> (16 * k) % 0x1_0000 := by
  have h := (laneRange k).get_lt w.toNat
  rw [lane, UInt16.toNat_ofNat']
  exact Nat.mod_eq_of_lt h

theorem Lanes.toNat_toWord (l : Lanes) :
    l.toWord.toNat = l.off0.toNat + 0x1_0000 * l.off1.toNat + 0x1_0000_0000 * l.off2.toNat
      + 0x1_0000_0000_0000 * l.flags.toNat := by
  have h0 : l.off0.toNat < 65536 := l.off0.toNat_lt
  have h1 : l.off1.toNat < 65536 := l.off1.toNat_lt
  have h2 : l.off2.toNat < 65536 := l.off2.toNat_lt
  have h3 : l.flags.toNat < 65536 := l.flags.toNat_lt
  rw [toWord, UInt64.toNat_ofNat']
  exact Nat.mod_eq_of_lt (by omega)

theorem Word.toWord_lanes (w : Word) : w.lanes.toWord = w := by
  have hw : w.toNat < 0x1_0000_0000_0000_0000 := w.toNat_lt_size
  apply UInt64.toNat_inj.1
  rw [Lanes.toNat_toWord]
  simp only [lanes, toNat_lane, Nat.shiftRight_eq_div_pow, Nat.reduceMul, Nat.reducePow]
  omega

theorem Lanes.lanes_toWord (l : Lanes) : l.toWord.lanes = l := by
  have h0 : l.off0.toNat < 65536 := l.off0.toNat_lt
  have h1 : l.off1.toNat < 65536 := l.off1.toNat_lt
  have h2 : l.off2.toNat < 65536 := l.off2.toNat_lt
  have h3 : l.flags.toNat < 65536 := l.flags.toNat_lt
  have hlane (k : Nat) := Word.toNat_lane l.toWord k
  simp only [toNat_toWord, Nat.shiftRight_eq_div_pow] at hlane
  cases l with
  | mk off0 off1 off2 flags =>
    simp only [Word.lanes, Lanes.mk.injEq]
    refine ⟨?_, ?_, ?_, ?_⟩ <;> apply UInt16.toNat_inj.1 <;> rw [hlane] <;> dsimp only at * <;>
      omega

/-! ### Flag blocks -/

namespace FlagField

/-- The flag block that holds the given code in each of its fields. -/
def assemble (code : FlagField → UInt8) : UInt16 :=
  UInt16.ofNat (Closed.members.foldl (fun n f => n + (code f).toNat <<< f.range.lo) 0)

/-- The codes fit their fields. -/
def Fits (code : FlagField → UInt8) : Prop := ∀ f : FlagField, (code f).toNat < f.range.bound

theorem toNat_assemble {code : FlagField → UInt8} (h : Fits code) :
    (assemble code).toNat =
      (code .dstReg).toNat + 2 * (code .op0Reg).toNat + 4 * (code .op1Src).toNat
        + 32 * (code .resLogic).toNat + 128 * (code .pcUpdate).toNat
        + 1024 * (code .apUpdate).toNat + 4096 * (code .opcode).toNat := by
  have h0 := h .dstReg
  have h1 := h .op0Reg
  have h2 := h .op1Src
  have h3 := h .resLogic
  have h4 := h .pcUpdate
  have h5 := h .apUpdate
  have h6 := h .opcode
  simp only [range, BitRange.bound, Nat.reduceShiftLeft] at h0 h1 h2 h3 h4 h5 h6
  rw [assemble, UInt16.toNat_ofNat']
  simp only [Closed.members, List.foldl_cons, List.foldl_nil, range]
  omega

theorem read_assemble {code : FlagField → UInt8} (h : Fits code) (f : FlagField) :
    f.read (assemble code) = code f := by
  have h0 := h .dstReg
  have h1 := h .op0Reg
  have h2 := h .op1Src
  have h3 := h .resLogic
  have h4 := h .pcUpdate
  have h5 := h .apUpdate
  have h6 := h .opcode
  simp only [range, BitRange.bound, Nat.reduceShiftLeft] at h0 h1 h2 h3 h4 h5 h6
  apply UInt8.toNat_inj.1
  rw [toNat_read, toNat_assemble h]
  cases f <;>
    simp only [range, BitRange.get, BitRange.bound, Nat.reduceShiftLeft,
      Nat.shiftRight_eq_div_pow, Nat.reducePow] <;>
    omega

end FlagField

end Wordcode
