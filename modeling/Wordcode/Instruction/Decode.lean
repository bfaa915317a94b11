import Wordcode.Instruction.Basic
import Wordcode.Word.FlagField

/-!
# Decoding

A word stands for an instruction if its high bit is clear and the code in every flag field is
legal. Fields are looked up so that a part which another one depends on comes first: the program
counter's update before the result, the opcode before the allocation pointer's update. The first
field whose code is illegal is the reported fault, and a set high bit comes before them all. Steps
that may fail, one after the other, succeed if each of them does (`bind_eq_ok_iff`) and otherwise
end with the error of the first one that fails (`bind_eq_error_iff`).
-/

namespace Wordcode

/-- Why a word stands for no instruction. -/
inductive DecodeError where
  | highBitSet
  /-- No part has this code in the field. -/
  | illegalCode (field : FlagField) (code : UInt8)
deriving DecidableEq, Repr

/-- The text of the error (`fmt` of `DecodeError`). -/
def DecodeError.message : DecodeError → String
  | .highBitSet => "Instruction high bit was not set to zero"
  | .illegalCode field code => "Invalid " ++ field.label ++ " code: " ++ toString code.toNat

/-! ### Steps that may fail -/

section Steps

variable {ε α β : Type}

theorem bind_eq_ok_iff {x : Except ε α} {f : α → Except ε β} {b : β} :
    x >>= f = .ok b ↔ ∃ a, x = .ok a ∧ f a = .ok b := by
  cases x <;> simp [bind, Except.bind]

theorem bind_eq_error_iff {x : Except ε α} {f : α → Except ε β} {e : ε} :
    x >>= f = .error e ↔ x = .error e ∨ ∃ a, x = .ok a ∧ f a = .error e := by
  cases x <;> simp [bind, Except.bind]

end Steps

/-! ### Flag blocks and words -/

/-- The part of an instruction that the field of a flag block selects (`map_op1_addr`,
`map_pc_update` and `map_opcode`, and the look-ups of `map_res` and `map_ap_update`). -/
def FlagField.select (α : Type) [Closed α] [Coded α] (f : FlagField) (flags : UInt16) :
    Except DecodeError α :=
  match Coded.ofCode? α (f.read flags) with
  | some a => .ok a
  | none => .error (.illegalCode f (f.read flags))

/-- The register that a field of one bit selects; there is one for either value
(`map_register`). -/
def FlagField.selectRegister (f : FlagField) (flags : UInt16) : Register :=
  if f.read flags = 0 then .ap else .fp

/-- What a flag block stands for (`decode_flags`). Its highest bit belongs to no field and is
ignored here. -/
def Control.decode (flags : UInt16) : Except DecodeError Control := do
  let op1 ← FlagField.op1Src.select Op1Source flags
  let pc ← FlagField.pcUpdate.select PcUpdate flags
  let res ← FlagField.resLogic.select ResLogic.Stored flags
  let opcode ← FlagField.opcode.select Opcode flags
  let ap ← FlagField.apUpdate.select ApUpdate.Stored flags
  return {
    dst := FlagField.dstReg.selectRegister flags
    op0 := FlagField.op0Reg.selectRegister flags
    op1
    res := res.resolve pc
    pc
    ap := ap.resolve opcode
    fp := .ofOpcode opcode
    opcode }

/-- The instruction that a word stands for, or the fault that is met first
(`decode_instruction`). -/
def Instruction.decode (w : Word) : Except DecodeError Instruction :=
  if w.highBit then
    .error .highBitSet
  else
    (Control.decode w.lanes.flags).map fun control =>
      { control with
        off0 := Offset.unbias w.lanes.off0
        off1 := Offset.unbias w.lanes.off1
        off2 := Offset.unbias w.lanes.off2 }

end Wordcode
