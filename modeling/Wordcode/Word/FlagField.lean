import Wordcode.Closed
import Wordcode.Word.Basic

/-!
# Flag fields

The flag block of a word holds seven fields side by side, each of which fits a byte, so that `read`
loses no bit (`toNat_read`). A field of a word is replaced by writing the range of bits that it
takes there; the ranges of different fields are apart (`wordRange_apart`), and so is the high bit
(`wordRange_apart_highBit`).
-/

namespace Wordcode

/-- The fields of the flag block (`FlagBlock`), lowest bits first. -/
inductive FlagField where
  | dstReg
  | op0Reg
  | op1Src
  | resLogic
  | pcUpdate
  | apUpdate
  | opcode
deriving DecidableEq, Repr

instance : Closed FlagField :=
  ⟨[.dstReg, .op0Reg, .op1Src, .resLogic, .pcUpdate, .apUpdate, .opcode],
   by intro f; cases f <;> simp⟩

namespace FlagField

/-- Where the field lies in the flag block (the pairs `DST_REG` to `OPCODE`). -/
def range : FlagField → BitRange
  | .dstReg => ⟨0, 1⟩
  | .op0Reg => ⟨1, 1⟩
  | .op1Src => ⟨2, 3⟩
  | .resLogic => ⟨5, 2⟩
  | .pcUpdate => ⟨7, 3⟩
  | .apUpdate => ⟨10, 2⟩
  | .opcode => ⟨12, 3⟩

/-- The name of the field in messages and tables. -/
def label : FlagField → String
  | .dstReg => "dst_reg"
  | .op0Reg => "op0_reg"
  | .op1Src => "op1_src"
  | .resLogic => "res_logic"
  | .pcUpdate => "pc_update"
  | .apUpdate => "ap_update"
  | .opcode => "opcode"

/-- The code that a flag block holds in the field, legal or not (`field`, and by it `dst_reg` to
`opcode`). -/
def read (f : FlagField) (flags : UInt16) : UInt8 := UInt8.ofNat (f.range.get flags.toNat)

theorem toNat_read (f : FlagField) (flags : UInt16) :
    (f.read flags).toNat = f.range.get flags.toNat := by
  have h := f.range.get_lt flags.toNat
  have hbound : f.range.bound ≤ 8 := by cases f <;> decide
  rw [read, UInt8.toNat_ofNat']
  exact Nat.mod_eq_of_lt (by omega)

theorem label_injective {f g : FlagField} (h : f.label = g.label) : f = g := by
  revert h
  cases f <;> cases g <;> simp [label]

end FlagField

/-! ### Fields of a word -/

/-- Where the field lies in a word: the flag block takes the highest lane. -/
def FlagField.wordRange (f : FlagField) : BitRange := ⟨48 + f.range.lo, f.range.width⟩

namespace Word

/-- The word with the code of one field replaced; the code has to fit the field. -/
def withCode (w : Word) (f : FlagField) (code : UInt8) : Word :=
  UInt64.ofNat (f.wordRange.set code.toNat w.toNat)

def clearHighBit (w : Word) : Word := UInt64.ofNat (highBitRange.set 0 w.toNat)

end Word

theorem FlagField.wordRange_apart {f g : FlagField} (h : f ≠ g) :
    f.wordRange.Apart g.wordRange := by
  revert h
  cases f <;> cases g <;> decide

theorem FlagField.wordRange_apart_highBit (f : FlagField) :
    f.wordRange.Apart Word.highBitRange := by
  cases f <;> decide

end Wordcode
