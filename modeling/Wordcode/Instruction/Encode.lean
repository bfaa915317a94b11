import Wordcode.Instruction.Decode
import Wordcode.Word.Assemble

/-!
# Encoding

The word of an instruction. Not every combination of parts has one: what a word leaves implied
must be what its other parts imply. Instructions that are so are called coherent, and they are the
ones whose word stands for them. The numbers that stand for the parts are listed in one table
(`Control.code_eq`).
-/

namespace Wordcode

/-! ### Implied parts -/

/-- How a word stores the result logic. -/
def ResLogic.stored : ResLogic → ResLogic.Stored
  | .op1 | .unconstrained => .implied
  | .add => .add
  | .mul => .mul

/-- How a word stores the update of the allocation pointer. -/
def ApUpdate.stored : ApUpdate → ApUpdate.Stored
  | .regular | .add2 => .implied
  | .add => .add
  | .add1 => .add1

/-- The parts that words do not store, or store in part, agree with those they follow from. -/
def Control.Coherent (c : Control) : Prop :=
  c.fp = .ofOpcode c.opcode ∧
  (c.res = .unconstrained → c.pc = .jnz) ∧
  (c.res = .op1 → c.pc ≠ .jnz) ∧
  (c.ap = .add2 → c.opcode = .call) ∧
  (c.ap = .regular → c.opcode ≠ .call)

instance (c : Control) : Decidable c.Coherent := by unfold Control.Coherent; infer_instance

theorem ResLogic.resolve_stored_iff {res : ResLogic} {pc : PcUpdate} :
    res.stored.resolve pc = res ↔
      (res = .unconstrained → pc = .jnz) ∧ (res = .op1 → pc ≠ .jnz) := by
  cases res <;> cases pc <;> decide

theorem ApUpdate.resolve_stored_iff {ap : ApUpdate} {opcode : Opcode} :
    ap.stored.resolve opcode = ap ↔
      (ap = .add2 → opcode = .call) ∧ (ap = .regular → opcode ≠ .call) := by
  cases ap <;> cases opcode <;> decide

theorem ResLogic.stored_resolve (s : ResLogic.Stored) (pc : PcUpdate) :
    (s.resolve pc).stored = s := by
  cases s <;> cases pc <;> rfl

theorem ApUpdate.stored_resolve (s : ApUpdate.Stored) (opcode : Opcode) :
    (s.resolve opcode).stored = s := by
  cases s <;> cases opcode <;> rfl

/-! ### Words of instructions -/

/-- The code that each flag field of the instruction's word holds. -/
def Control.code (c : Control) : FlagField → UInt8
  | .dstReg => Coded.code c.dst
  | .op0Reg => Coded.code c.op0
  | .op1Src => Coded.code c.op1
  | .resLogic => Coded.code c.res.stored
  | .pcUpdate => Coded.code c.pc
  | .apUpdate => Coded.code c.ap.stored
  | .opcode => Coded.code c.opcode

/-- The numbers of all parts, as they stand in words. -/
theorem Control.code_eq (c : Control) (f : FlagField) :
    c.code f =
      match f with
      | .dstReg => match c.dst with | .ap => 0 | .fp => 1
      | .op0Reg => match c.op0 with | .ap => 0 | .fp => 1
      | .op1Src => match c.op1 with | .op0 => 0 | .imm => 1 | .fp => 2 | .ap => 4
      | .resLogic => match c.res with | .op1 | .unconstrained => 0 | .add => 1 | .mul => 2
      | .pcUpdate => match c.pc with | .regular => 0 | .jump => 1 | .jumpRel => 2 | .jnz => 4
      | .apUpdate => match c.ap with | .regular | .add2 => 0 | .add => 1 | .add1 => 2
      | .opcode => match c.opcode with | .nop => 0 | .call => 1 | .ret => 2 | .assertEq => 4 := by
  cases f with
  | dstReg => cases hdst : c.dst <;> rw [code, hdst] <;> rfl
  | op0Reg => cases hop0 : c.op0 <;> rw [code, hop0] <;> rfl
  | op1Src => cases hop1 : c.op1 <;> rw [code, hop1] <;> rfl
  | resLogic => cases hres : c.res <;> rw [code, hres] <;> rfl
  | pcUpdate => cases hpc : c.pc <;> rw [code, hpc] <;> rfl
  | apUpdate => cases hap : c.ap <;> rw [code, hap] <;> rfl
  | opcode => cases hopcode : c.opcode <;> rw [code, hopcode] <;> rfl

def Control.flags (c : Control) : UInt16 := FlagField.assemble c.code

def Instruction.encode (i : Instruction) : Word :=
  Lanes.toWord ⟨Offset.bias i.off0, Offset.bias i.off1, Offset.bias i.off2, i.flags⟩

theorem Control.fits_code (c : Control) : FlagField.Fits c.code := by
  intro f
  rw [code_eq]
  cases f with
  | dstReg => dsimp only; cases c.dst <;> decide
  | op0Reg => dsimp only; cases c.op0 <;> decide
  | op1Src => dsimp only; cases c.op1 <;> decide
  | resLogic => dsimp only; cases c.res <;> decide
  | pcUpdate => dsimp only; cases c.pc <;> decide
  | apUpdate => dsimp only; cases c.ap <;> decide
  | opcode => dsimp only; cases c.opcode <;> decide

end Wordcode
