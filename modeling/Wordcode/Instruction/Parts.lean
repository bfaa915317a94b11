import Wordcode.Closed

/-!
# Parts of an instruction

The closed sets from which the flags of an instruction choose. Four of them are stored as they
are. The result logic and the update of the allocation pointer are stored in part only: their
code 0 leaves the choice to another part, and `resolve` makes it. The update of the frame pointer
is not stored at all; it follows from the opcode.
-/

namespace Wordcode

/-- The register that a memory operand is relative to. -/
inductive Register where
  /-- The allocation pointer. -/
  | ap
  /-- The frame pointer. -/
  | fp
deriving DecidableEq, Repr

/-- Where the second operand comes from (`Op1Addr`). -/
inductive Op1Source where
  /-- The memory cell that the first operand points to, moved by the third offset. -/
  | op0
  /-- The word after the instruction. -/
  | imm
  /-- Memory relative to the frame pointer. -/
  | fp
  /-- Memory relative to the allocation pointer. -/
  | ap
deriving DecidableEq, Repr

/-- How the program counter moves. -/
inductive PcUpdate where
  | regular
  | jump
  | jumpRel
  | jnz
deriving DecidableEq, Repr

/-- The class of an instruction. -/
inductive Opcode where
  | nop
  | call
  | ret
  | assertEq
deriving DecidableEq, Repr

/-- How the result is computed from the operands (`Res`). -/
inductive ResLogic where
  /-- The second operand alone. -/
  | op1
  | add
  | mul
  /-- No result is computed; only a conditional jump does without one. -/
  | unconstrained
deriving DecidableEq, Repr

/-- How the allocation pointer moves. -/
inductive ApUpdate where
  | regular
  | add
  | add1
  | add2
deriving DecidableEq, Repr

/-- How the frame pointer moves. -/
inductive FpUpdate where
  | regular
  /-- To the allocation pointer plus two, for the frame of a callee. -/
  | apPlus2
  /-- Back to the frame of the caller, read from the destination. -/
  | dst
deriving DecidableEq, Repr

/-! ### What words store of the two dependent parts -/

/-- The result logic as stored (`ResLogicCode`); `implied` leaves it to the program counter's
update. -/
inductive ResLogic.Stored where
  | implied
  | add
  | mul
deriving DecidableEq, Repr

/-- The allocation pointer's update as stored (`ApUpdateCode`); `implied` leaves it to the
opcode. -/
inductive ApUpdate.Stored where
  | implied
  | add
  | add1
deriving DecidableEq, Repr

/-- A conditional jump leaves its implied result unconstrained; all else takes the operand
(`map_res`). -/
def ResLogic.Stored.resolve (pc : PcUpdate) : ResLogic.Stored → ResLogic
  | .implied => if pc = .jnz then .unconstrained else .op1
  | .add => .add
  | .mul => .mul

/-- A call pushes two cells unless the word says otherwise; all else pushes none
(`map_ap_update`). -/
def ApUpdate.Stored.resolve (opcode : Opcode) : ApUpdate.Stored → ApUpdate
  | .implied => if opcode = .call then .add2 else .regular
  | .add => .add
  | .add1 => .add1

/-- A call opens a frame, a return restores one, and all else stays in its frame (`from` of
`FpUpdate`). -/
def FpUpdate.ofOpcode : Opcode → FpUpdate
  | .call => .apPlus2
  | .ret => .dst
  | .nop | .assertEq => .regular

/-! ### Members -/

instance : Closed Register := ⟨[.ap, .fp], by intro a; cases a <;> simp⟩

instance : Closed Op1Source := ⟨[.op0, .imm, .fp, .ap], by intro a; cases a <;> simp⟩

instance : Closed PcUpdate := ⟨[.regular, .jump, .jumpRel, .jnz], by intro a; cases a <;> simp⟩

instance : Closed Opcode := ⟨[.nop, .call, .ret, .assertEq], by intro a; cases a <;> simp⟩

instance : Closed ResLogic := ⟨[.op1, .add, .mul, .unconstrained], by intro a; cases a <;> simp⟩

instance : Closed ApUpdate := ⟨[.regular, .add, .add1, .add2], by intro a; cases a <;> simp⟩

instance : Closed FpUpdate := ⟨[.regular, .apPlus2, .dst], by intro a; cases a <;> simp⟩

instance : Closed ResLogic.Stored := ⟨[.implied, .add, .mul], by intro a; cases a <;> simp⟩

instance : Closed ApUpdate.Stored := ⟨[.implied, .add, .add1], by intro a; cases a <;> simp⟩

/-! ### Codes

Where one of several sources or jumps is chosen, the codes are the powers of two below 8 and
zero, so that each bit of the field stands for one choice. -/

instance : Coded Register where
  title := "Register"
  code
    | .ap => 0
    | .fp => 1
  code_injective := by intro a b; cases a <;> cases b <;> simp

instance : Coded Op1Source where
  title := "Op1Addr"
  code
    | .op0 => 0
    | .imm => 1
    | .fp => 2
    | .ap => 4
  code_injective := by intro a b; cases a <;> cases b <;> simp

instance : Coded PcUpdate where
  title := "PcUpdate"
  code
    | .regular => 0
    | .jump => 1
    | .jumpRel => 2
    | .jnz => 4
  code_injective := by intro a b; cases a <;> cases b <;> simp

instance : Coded Opcode where
  title := "Opcode"
  code
    | .nop => 0
    | .call => 1
    | .ret => 2
    | .assertEq => 4
  code_injective := by intro a b; cases a <;> cases b <;> simp

instance : Coded ResLogic.Stored where
  title := "ResLogicCode"
  code
    | .implied => 0
    | .add => 1
    | .mul => 2
  code_injective := by intro a b; cases a <;> cases b <;> simp

instance : Coded ApUpdate.Stored where
  title := "ApUpdateCode"
  code
    | .implied => 0
    | .add => 1
    | .add1 => 2
  code_injective := by intro a b; cases a <;> cases b <;> simp

/-! ### Names -/

instance : Named Register where
  name
    | .ap => "AP"
    | .fp => "FP"
  name_injective := by intro a b; cases a <;> cases b <;> simp

instance : Named Op1Source where
  name
    | .op0 => "Op0"
    | .imm => "Imm"
    | .fp => "FP"
    | .ap => "AP"
  name_injective := by intro a b; cases a <;> cases b <;> simp

instance : Named PcUpdate where
  name
    | .regular => "Regular"
    | .jump => "Jump"
    | .jumpRel => "JumpRel"
    | .jnz => "Jnz"
  name_injective := by intro a b; cases a <;> cases b <;> simp

instance : Named Opcode where
  name
    | .nop => "NOp"
    | .call => "Call"
    | .ret => "Ret"
    | .assertEq => "AssertEq"
  name_injective := by intro a b; cases a <;> cases b <;> simp

instance : Named ResLogic where
  name
    | .op1 => "Op1"
    | .add => "Add"
    | .mul => "Mul"
    | .unconstrained => "Unconstrained"
  name_injective := by intro a b; cases a <;> cases b <;> simp

instance : Named ApUpdate where
  name
    | .regular => "Regular"
    | .add => "Add"
    | .add1 => "Add1"
    | .add2 => "Add2"
  name_injective := by intro a b; cases a <;> cases b <;> simp

instance : Named FpUpdate where
  name
    | .regular => "Regular"
    | .apPlus2 => "APPlus2"
    | .dst => "Dst"
  name_injective := by intro a b; cases a <;> cases b <;> simp

instance : Named ResLogic.Stored where
  name
    | .implied => "Implied"
    | .add => "Add"
    | .mul => "Mul"
  name_injective := by intro a b; cases a <;> cases b <;> simp

instance : Named ApUpdate.Stored where
  name
    | .implied => "Implied"
    | .add => "Add"
    | .add1 => "Add1"
  name_injective := by intro a b; cases a <;> cases b <;> simp

end Wordcode
